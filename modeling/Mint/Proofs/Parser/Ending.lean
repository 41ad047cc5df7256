import Mint.Proofs.Grammar.Tokens
import Mint.Parser.Statement

/-!
# How parsing ends

A parser that has enough fuel for what is ahead is never starved, and an error that it
ends in is on the line of the token it stands on, or is that of the line it wanted to
read next (`Runs`). The fuel is charged by the token, with a little more for productions
that nest without taking one (`Enough`).

The second part is not obvious where a production reports a line that it remembered. It
holds because such productions stay inside a line: every token but the newline mark has
another of its line behind it (`Linked`).
-/

namespace Mint

/-- The line of a reading. -/
def Reading.line : Reading → Nat
  | .token lexeme => lexeme.line
  | .fault e => e.line

/-- Readings as they come from lines, up to the first error: behind a token that does
not end its line stands another of that line, line numbers do not go down, and the end
of the input comes last. -/
inductive Linked : List Reading → Prop where
  | eof {number} : Linked [.token ⟨Token.eof, number⟩]
  | inside {lexeme next rest} (hne : lexeme.token ≠ Token.eof)
    (hline : next.line = lexeme.line)
    (hrest : Linked (.token next :: rest)) : Linked (.token lexeme :: .token next :: rest)
  | newline {number reading rest} (hle : number ≤ reading.line)
    (hrest : Linked (reading :: rest)) :
    Linked (.token ⟨Token.newline, number⟩ :: reading :: rest)
  | fault {e rest} : Linked (.fault e :: rest)

namespace Cursor

/-! ## Moves of a cursor -/

/-- Successful moves lead from one cursor to the other. -/
inductive Reaches : Cursor → Cursor → Prop where
  | refl {c} : Reaches c c
  | next {c token c' c''} (hnext : Cursor.next c = .ok token c')
    (hrest : Reaches c' c'') : Reaches c c''

variable {c c' c'' : Cursor} {token : Token}

theorem Reaches.trans (h : c.Reaches c') (h' : c'.Reaches c'') : c.Reaches c'' := by
  induction h with
  | refl => exact h'
  | next hnext _ ih => exact .next hnext (ih h')

theorem linked_of_next (h : Linked c.stream) (hnext : Cursor.next c = .ok token c') :
    Linked c'.stream ∧ c'.ahead.length ≤ c.ahead.length := by
  obtain ⟨passed, current, ahead⟩ := c
  cases h with
  | eof =>
    cases hnext
    exact ⟨.eof, Nat.le_refl _⟩
  | inside _ _ hrest =>
    cases hnext
    exact ⟨hrest, Nat.le_succ _⟩
  | @newline _ reading rest hle hrest =>
    cases reading with
    | token lexeme =>
      cases hnext
      exact ⟨hrest, Nat.le_succ _⟩
    | fault e => cases hnext

theorem Reaches.linked (h : c.Reaches c') (hc : Linked c.stream) :
    Linked c'.stream ∧ c'.ahead.length ≤ c.ahead.length := by
  induction h with
  | refl => exact ⟨hc, Nat.le_refl _⟩
  | next hnext _ ih =>
    obtain ⟨hlinked, hle⟩ := linked_of_next hc hnext
    obtain ⟨hlinked', hle'⟩ := ih hlinked
    exact ⟨hlinked', Nat.le_trans hle' hle⟩

/-- The second cursor is on the way of the first, at least `taken` tokens on. With the
flag set it is on the same line. -/
structure Goes (inline : Bool) (taken : Nat) (c c' : Cursor) : Prop where
  reaches : c.Reaches c'
  ahead : c'.ahead.length + taken ≤ c.ahead.length
  line : inline = true → c'.line = c.line

variable {inline : Bool} {m n : Nat}

theorem Goes.refl : Goes inline 0 c c := ⟨.refl, Nat.le_refl _, fun _ => rfl⟩

theorem Goes.trans (h : Goes inline m c c') (h' : Goes inline n c' c'') :
    Goes inline (m + n) c c'' := by
  have hahead := h.ahead
  have hahead' := h'.ahead
  exact ⟨h.reaches.trans h'.reaches, by omega,
    fun hinline => (h'.line hinline).trans (h.line hinline)⟩

theorem Goes.weaken (h : Goes inline m c c') (hle : n ≤ m) : Goes inline n c c' := by
  have hahead := h.ahead
  exact ⟨h.reaches, by omega, h.line⟩

/-- Behind a token everything is behind that token. -/
theorem Goes.on (h : Goes inline 1 c c') (h' : Goes inline n c' c'') :
    Goes inline 1 c c'' :=
  (h.trans h').weaken (Nat.le_add_right 1 n)

theorem Goes.linked (h : Goes inline n c c') (hc : Linked c.stream) : Linked c'.stream :=
  (h.reaches.linked hc).1

/-- A move from a token that is not the last, and not the last of its line if the move
is to stay there. -/
theorem goes_of_next (h : Linked c.stream) (hne : c.token ≠ Token.eof)
    (hline : inline = true → c.token ≠ Token.newline)
    (hnext : Cursor.next c = .ok token c') : c.Goes inline 1 c' := by
  have hmoved : c'.ahead.length + 1 ≤ c.ahead.length ∧
      (inline = true → c'.line = c.line) := by
    obtain ⟨passed, current, ahead⟩ := c
    cases h with
    | eof => exact absurd rfl hne
    | inside _ hsame =>
      cases hnext
      exact ⟨Nat.le_refl _, fun _ => hsame⟩
    | @newline _ reading =>
      cases reading with
      | token lexeme =>
        cases hnext
        exact ⟨Nat.le_refl _, fun hinline => absurd rfl (hline hinline)⟩
      | fault e => cases hnext
  exact ⟨.next hnext .refl, hmoved.1, hmoved.2⟩

end Cursor

/-- The error, with the cursor that is left, of a run that began at `c`: it is on the
line of that cursor, or it is the error of a move. -/
inductive Reported (c : Cursor) : ParseError → Cursor → Prop where
  | here {e c'} (hreaches : c.Reaches c') (hline : e.line = c'.line) : Reported c e c'
  | fault {e c' c''} (hreaches : c.Reaches c')
    (hnext : Cursor.next c' = .error e c'') : Reported c (.lexical e) c''

theorem Reported.of_reaches {c c' c'' : Cursor} {e : ParseError} (hreaches : c.Reaches c')
    (h : Reported c' e c'') :
    Reported c e c'' := by
  cases h with
  | here hreaches' hline => exact .here (hreaches.trans hreaches') hline
  | fault hreaches' hnext => exact .fault (hreaches.trans hreaches') hnext

/-- No error is reported on a line before the current one. -/
theorem Reported.line_le {c c' : Cursor} {e : ParseError} (h : Reported c e c')
    (hc : Linked c.stream) :
    c'.line ≤ e.line := by
  cases h with
  | here _ hline => exact Nat.le_of_eq hline.symm
  | @fault e c' _ hreaches hnext =>
    have hlinked := (hreaches.linked hc).1
    obtain ⟨passed, current, ahead⟩ := c'
    cases hlinked with
    | eof => cases hnext
    | inside => cases hnext
    | @newline _ reading _ hle =>
      cases reading with
      | token lexeme => cases hnext
      | fault e =>
        cases hnext
        exact hle

/-! ## Runs -/

/-- The run from `s` is not starved, goes at least `taken` tokens on when it is done,
and says where it failed when it fails. With the flag set it stays inside its line. -/
structure Runs (inline : Bool) (taken : Nat) {α : Type} (x : Parser α) (s : ParserState) :
    Prop where
  fed : x s ≠ .starved
  done : ∀ {a t}, x s = .done (a, t) → s.cursor.Goes inline taken t.cursor
  failed : ∀ {e t}, x s = .failed (e, t) → Reported s.cursor e t.cursor

namespace Runs

open Mint.Parser

variable {inline : Bool} {m n : Nat} {α β : Type} {s : ParserState}

theorem of_done {x : Parser α} {a : α} {t : ParserState} (heq : x s = .done (a, t))
    (h : s.cursor.Goes inline n t.cursor) : Runs inline n x s := by
  refine ⟨?_, ?_, ?_⟩
  · intro hstarved
    cases heq.symm.trans hstarved
  · intro _ _ hdone
    cases heq.symm.trans hdone
    exact h
  · intro _ _ hfailed
    cases heq.symm.trans hfailed

theorem of_failed {x : Parser α} {e : ParseError} {t : ParserState}
    (heq : x s = .failed (e, t)) (h : Reported s.cursor e t.cursor) :
    Runs inline n x s := by
  refine ⟨?_, ?_, ?_⟩
  · intro hstarved
    cases heq.symm.trans hstarved
  · intro _ _ hdone
    cases heq.symm.trans hdone
  · intro _ _ hfailed
    cases heq.symm.trans hfailed
    exact h

theorem weaken {x : Parser α} (h : Runs inline m x s) (hle : n ≤ m) : Runs inline n x s :=
  ⟨h.fed, fun hdone => (h.done hdone).weaken hle, h.failed⟩

/-- A run that stays inside its line. -/
theorem anywhere {x : Parser α} (h : Runs true n x s) : Runs inline n x s where
  fed := h.fed
  done := fun hdone =>
    ⟨(h.done hdone).reaches, (h.done hdone).ahead, fun _ => (h.done hdone).line rfl⟩
  failed := h.failed

theorem pure (a : α) : Runs inline 0 (Pure.pure a : Parser α) s := of_done rfl .refl

theorem fail {e : ParseError} (h : e.line = s.cursor.line) :
    Runs inline n (Run.fail e : Parser α) s :=
  of_failed rfl (.here .refl h)

/-- The second run may count on what the first has come to. The tokens that both take
add up. -/
theorem bindBoth {x : Parser α} {f : α → Parser β} (hx : Runs inline m x s)
    (hf : ∀ a t,
      x s = .done (a, t) → s.cursor.Goes inline m t.cursor → Runs inline n (f a) t) :
    Runs inline (m + n) (x >>= f) s := by
  cases hxs : x s with
  | starved => exact absurd hxs hx.fed
  | failed r => exact of_failed (Run.bind_failed hxs) (hx.failed hxs)
  | done r =>
    have hgoes := hx.done hxs
    have hrest := hf r.1 r.2 hxs hgoes
    have heq : (x >>= f) s = f r.1 r.2 := Run.bind_done hxs
    cases hfr : f r.1 r.2 with
    | starved => exact absurd hfr hrest.fed
    | failed q =>
      exact of_failed (heq.trans hfr) ((hrest.failed hfr).of_reaches hgoes.reaches)
    | done q => exact of_done (heq.trans hfr) (hgoes.trans (hrest.done hfr))

theorem bind {x : Parser α} {f : α → Parser β} (hx : Runs inline m x s)
    (hf : ∀ a t,
      x s = .done (a, t) → s.cursor.Goes inline m t.cursor → Runs inline n (f a) t) :
    Runs inline n (x >>= f) s := (hx.bindBoth hf).weaken (Nat.le_add_left n m)

theorem bindFirst {x : Parser α} {f : α → Parser β} (hx : Runs inline m x s)
    (hf : ∀ a t,
      x s = .done (a, t) → s.cursor.Goes inline m t.cursor → Runs inline 0 (f a) t) :
    Runs inline m (x >>= f) s := hx.bindBoth hf

/-- Looking at the state is no step. -/
theorem gets {f : ParserState → α} {k : α → Parser β} (h : Runs inline n (k (f s)) s) :
    Runs inline n (Run.gets f >>= k) s := ⟨h.fed, h.done, h.failed⟩

theorem unexpected (expected : Expectation) :
    Runs inline n (unexpected expected : Parser α) s := .gets (.gets (.fail rfl))

theorem check {passes : Cursor → Except LexError α}
    (h : ∀ {e}, passes s.cursor = .error e → e.line = s.cursor.line) :
    Runs inline 0 (check passes) s := by
  cases hpasses : passes s.cursor with
  | ok a => exact of_done (check_of_ok hpasses) .refl
  | error e =>
    have heq : Parser.check passes s = .failed (.lexical e, s) := by
      rw [Parser.check, hpasses]
    exact of_failed heq (.here .refl (h hpasses))

theorem advance (h : Linked s.cursor.stream) (hne : s.cursor.token ≠ Token.eof)
    (hline : inline = true → s.cursor.token ≠ Token.newline) :
    Runs inline 1 advance s := by
  cases hnext : Cursor.next s.cursor with
  | ok token c =>
    have heq : Parser.advance s = .done ((), { s with cursor := c }) := by
      rw [Parser.advance, hnext]
    exact of_done heq (Cursor.goes_of_next h hne hline hnext)
  | error e c =>
    have heq : Parser.advance s = .failed (.lexical e, { s with cursor := c }) := by
      rw [Parser.advance, hnext]
    exact of_failed heq (.fault .refl hnext)

theorem line_of_expect {c : Cursor} {kind : Token.Kind} {e : LexError}
    (h : c.expect kind = .error e) : e.line = c.line := by
  rw [Cursor.expect] at h
  split at h <;> cases h
  rfl

theorem line_of_expectValue {c : Cursor} {token : Token} {e : LexError}
    (h : c.expectValue token = .error e) :
    e.line = c.line := by
  rw [Cursor.expectValue] at h
  split at h
  · next hexpect =>
    cases h
    exact line_of_expect hexpect
  · split at h <;> cases h
    rfl

theorem line_of_expectId {c : Cursor} {e : LexError} (h : c.expectId = .error e) :
    e.line = c.line := by
  rw [Cursor.expectId] at h
  split at h <;> cases h
  rfl

theorem take {token : Token} (h : Linked s.cursor.stream) (hne : token ≠ Token.eof)
    (hline : inline = true → token ≠ Token.newline) : Runs inline 1 (take token) s := by
  refine .bind (.check line_of_expectValue) fun _ t hcheck _ => ?_
  obtain ⟨hok, rfl⟩ := ok_of_check hcheck
  obtain rfl := expectValue_ok_iff.mp hok
  exact .advance h hne hline

theorem takeChar (h : Linked s.cursor.stream) (c : Char) : Runs inline 1 (takeChar c) s :=
  .take h (by simp) (by simp)

theorem takeId (h : Linked s.cursor.stream) : Runs inline 1 takeId s := by
  refine .bind (.check line_of_expectId) fun _ t hcheck _ =>
    .bindFirst ?_ fun _ _ _ _ => .pure _
  obtain ⟨hok, rfl⟩ := ok_of_check hcheck
  have htoken := expectId_ok_iff.mp hok
  exact .advance h (by simp [htoken]) (by simp [htoken])

/-- A step over a token that is no mark. -/
theorem advancePlain (h : Linked s.cursor.stream)
    (htoken : s.cursor.token.isLayout = false) :
    Runs inline 1 Parser.advance s := by
  refine .advance h ?_ fun _ => ?_
  · intro heof
    rw [heof] at htoken
    cases htoken
  · intro hnewline
    rw [hnewline] at htoken
    cases htoken

/-- A step over a character that is there. -/
theorem advanceChar (h : Linked s.cursor.stream) {c : Char}
    (hc : s.cursor.token.isChar c = true) :
    Runs inline 1 Parser.advance s := by
  refine .advancePlain h ?_
  rw [isChar_iff.mp hc]
  rfl

end Runs

/-! ## Fuel -/

/-- The fuel pays for what is ahead of the cursor, and for `cost` productions that take
nothing. -/
structure Enough (fuel cost : Nat) (c : Cursor) : Prop where
  linked : Linked c.stream
  pays : 16 * c.ahead.length + cost ≤ fuel

namespace Enough

variable {fuel cost cost' : Nat} {c c' : Cursor} {inline : Bool}

/-- A production inside another that may have taken nothing yet. -/
theorem spendOn (h : Enough (fuel + 1) cost c) (hgoes : c.Goes inline 0 c')
    (hcost : cost' < cost) :
    Enough fuel cost' c' := by
  have hpays := h.pays
  have hahead := hgoes.ahead
  exact ⟨hgoes.linked h.linked, by omega⟩

theorem spend (h : Enough (fuel + 1) cost c) (hcost : cost' < cost) :
    Enough fuel cost' c :=
  h.spendOn (Cursor.Goes.refl : c.Goes true 0 c) hcost

/-- A production inside another that has taken a token. -/
theorem earn (h : Enough (fuel + 1) cost c) (hgoes : c.Goes inline 1 c')
    (hcost : cost' ≤ 15) : Enough fuel cost' c' := by
  have hpays := h.pays
  have hahead := hgoes.ahead
  exact ⟨hgoes.linked h.linked, by omega⟩

end Enough

namespace Runs

open Mint.Parser

variable {inline : Bool} {fuel : Nat} {s : ParserState}

/-! ## Expressions -/

theorem segments (h : Enough fuel 1 s.cursor) : Runs true 0 (segments fuel) s := by
  induction fuel generalizing s with
  | zero => exact absurd h.pays (by omega)
  | succ fuel ih =>
    refine .gets ?_
    split
    · next hdot =>
      refine .bind (.advanceChar h.linked hdot) fun _ t _ ht =>
        .bind (.takeId (ht.linked h.linked)) fun _ u _ hu => ?_
      exact .bind (ih (h.earn (ht.on hu) (by decide))) fun _ _ _ _ => .pure _
    · exact .pure _

/-- All productions for expressions run with enough fuel. -/
structure Expressions (fuel : Nat) : Prop where
  expression : ∀ {level s}, Enough fuel (Grammar.height level + 4) s.cursor →
    Runs true 0 (expression fuel level) s
  chain : ∀ {level left s}, Enough fuel 1 s.cursor → Runs true 0 (chain fuel level left) s
  calls : ∀ {object s}, Enough fuel 1 s.cursor → Runs true 0 (calls fuel object) s
  atom : ∀ {s}, Enough fuel 3 s.cursor → Runs true 0 (atom fuel) s
  name : ∀ {s}, Enough fuel 2 s.cursor → Runs true 0 (name fuel) s
  arguments : ∀ {s}, Enough fuel 1 s.cursor → Runs true 0 (arguments fuel) s
  expressions : ∀ {s}, Enough fuel 11 s.cursor → Runs true 0 (expressions fuel) s

/-- Behind a token there is fuel for any expression. -/
theorem Expressions.behind (ih : Expressions fuel) {cost : Nat} {c : Cursor}
    (h : Enough (fuel + 1) cost c) {t : ParserState} (ht : c.Goes true 1 t.cursor)
    {level : Level} : Runs true 0 (Parser.expression fuel level) t := by
  refine ih.expression (h.earn ht ?_)
  cases level <;> decide

theorem expression_succ (ih : Expressions fuel) {level : Level}
    (h : Enough (fuel + 1) (Grammar.height level + 4) s.cursor) :
    Runs true 0 (expression (fuel + 1) level) s := by
  have hlinked := h.linked
  cases level with
  | disjunction | conjunction | sum | product =>
    exact .bind (ih.expression (h.spend (by decide))) fun _ _ _ ht =>
      ih.chain (h.spendOn ht (by decide))
  | negation =>
    rw [expression]
    refine .gets ?_
    split
    · next hnot =>
      refine .bind (.advancePlain hlinked ?_) fun _ _ _ ht =>
        .bind (ih.behind h ht) fun _ _ _ _ => .pure _
      rw [beq_iff_eq.mp hnot]
      rfl
    · exact ih.expression (h.spend (by decide))
  | comparison =>
    rw [expression]
    refine .bind (ih.expression (h.spend (by decide))) fun left t _ ht => .gets ?_
    cases hop : comparator? t.cursor.token with
    | none => exact .pure _
    | some op =>
      refine .bind (.advancePlain (ht.linked hlinked)
        (Grammar.isLayout_of_comparator? hop)) fun _ u _ hu => ?_
      exact .bind (ih.behind h (ht.trans hu)) fun _ _ _ _ => .pure _
  | sign =>
    rw [expression]
    refine .gets ?_
    split
    · next hminus =>
      exact .bind (.advanceChar hlinked hminus) fun _ _ _ ht =>
        .bind (ih.behind h ht) fun _ _ _ _ => .pure _
    · exact .bind (ih.atom (h.spend (by decide))) fun _ _ _ ht =>
        ih.calls (h.spendOn ht (by decide))

theorem chain_succ (ih : Expressions fuel) {level : Level} {left : Node}
    (h : Enough (fuel + 1) 1 s.cursor) :
    Runs true 0 (chain (fuel + 1) level left) s := by
  rw [chain]
  refine .gets ?_
  cases hop : level.join? s.cursor.token with
  | none => exact .pure _
  | some join =>
    refine .bind (.advancePlain h.linked (Grammar.isLayout_of_join? hop))
      fun _ t _ ht => ?_
    exact .bind (ih.behind h ht) fun _ u _ hu => ih.chain (h.earn (ht.on hu) (by decide))

theorem calls_succ (ih : Expressions fuel) {object : Node}
    (h : Enough (fuel + 1) 1 s.cursor) :
    Runs true 0 (calls (fuel + 1) object) s := by
  rw [calls]
  refine .gets ?_
  split
  · next hdot =>
    refine .bind (.advanceChar h.linked hdot) fun _ t _ ht =>
      .bind (.takeId (ht.linked h.linked)) fun _ u _ hu => .gets ?_
    have hsu := ht.on hu
    split
    · refine .bind (ih.arguments (h.earn hsu (by decide))) fun _ v _ hv =>
        ih.calls (h.earn (hsu.on hv) (by decide))
    · exact .unexpected _
  · exact .pure _

theorem atom_succ (ih : Expressions fuel) (h : Enough (fuel + 1) 3 s.cursor) :
    Runs true 0 (atom (fuel + 1)) s := by
  have hlinked := h.linked
  rw [atom]
  refine .gets ?_
  cases hconst : constant? s.cursor.token with
  | some node =>
    exact .bind (.advancePlain hlinked (Grammar.isLayout_of_constant? hconst))
      fun _ _ _ _ => .pure _
  | none =>
    cases htoken : s.cursor.token with
    | id first => exact ih.name (h.spend (by decide))
    | char c =>
      split
      · next heq => cases heq
      · next hparen =>
        refine .bind (.advancePlain hlinked (by rw [htoken]; rfl)) fun _ t _ ht => ?_
        refine .bind (ih.behind h ht) fun _ u _ hu =>
          .bind (.takeChar ((ht.on hu).linked hlinked) _) fun _ _ _ _ => .pure _
      · exact ih.name (h.spend (by decide))
      · exact .unexpected _
    | _ => exact .unexpected _

theorem name_succ (ih : Expressions fuel) (h : Enough (fuel + 1) 2 s.cursor) :
    Runs true 0 (name (fuel + 1)) s := by
  rw [name]
  refine .gets (.bind (.takeId h.linked) fun first t _ ht => ?_)
  refine .bind (.segments (h.earn ht (by decide))) fun more u _ hu => .gets ?_
  have hsu := ht.on hu
  split
  · split
    · exact .bind (ih.arguments (h.earn hsu (by decide))) fun _ _ _ _ => .pure _
    · split
      · refine .bind (.takeChar (hsu.linked h.linked) _) fun _ v _ hv => ?_
        refine .bind (ih.behind h (hsu.on hv)) fun _ w _ hw => ?_
        exact .bind (.takeChar (((hsu.on hv).on hw).linked h.linked) _) fun _ _ _ _ =>
          .pure _
      · refine .gets ?_
        cases u.classes.latest? first with
        | some cls =>
          exact .bind (ih.arguments (h.earn hsu (by decide))) fun _ _ _ _ => .pure _
        | none => exact .fail (hsu.line rfl).symm
  · exact .pure _

theorem arguments_succ (ih : Expressions fuel) (h : Enough (fuel + 1) 1 s.cursor) :
    Runs true 0 (arguments (fuel + 1)) s := by
  rw [arguments]
  refine .bind (.takeChar h.linked _) fun _ t _ ht => .gets ?_
  split
  · refine .bind (.pure _) fun _ u _ hu =>
      .bind (.takeChar ((ht.on hu).linked h.linked) _) fun _ _ _ _ => .pure _
  · refine .bind (ih.expressions (h.earn ht (by decide))) fun _ u _ hu => ?_
    exact .bind (.takeChar ((ht.on hu).linked h.linked) _) fun _ _ _ _ => .pure _

theorem expressions_succ (ih : Expressions fuel) (h : Enough (fuel + 1) 11 s.cursor) :
    Runs true 0 (expressions (fuel + 1)) s := by
  rw [expressions]
  refine .bind (ih.expression (h.spend (by decide))) fun first t _ ht => .gets ?_
  split
  · next hcomma =>
    refine .bind (.advanceChar (ht.linked h.linked) hcomma) fun _ u _ hu => ?_
    exact .bind (ih.expressions (h.earn (ht.trans hu) (by decide))) fun _ _ _ _ => .pure _
  · exact .pure _

theorem ofFuel (fuel : Nat) : Expressions fuel := by
  induction fuel with
  | zero => constructor <;> (intros; exact absurd (Enough.pays ‹_›) (by omega))
  | succ fuel ih =>
    exact {
      expression := expression_succ ih
      chain := chain_succ ih
      calls := calls_succ ih
      atom := atom_succ ih
      name := name_succ ih
      arguments := arguments_succ ih
      expressions := expressions_succ ih }

/-! ## Lines -/

theorem assignment {start : Nat} {target : Node} {value : Parser Node}
    (h : Linked s.cursor.stream) (hstart : start = s.cursor.line)
    (hequals : s.cursor.token.isChar '=' = true)
    (hvalue : ∀ t : ParserState, s.cursor.Goes true 1 t.cursor → Runs true 0 value t) :
    Runs true 0 (assignment start target value) s := by
  cases target with
  | path segments =>
    rw [Parser.assignment]
    cases segments.getLast? with
    | none => exact .fail hstart
    | some last =>
      refine .bind (.advanceChar h hequals) fun _ t _ ht =>
        .bind (hvalue t ht) fun _ _ _ _ => ?_
      cases segments.dropLast with
      | nil => exact .pure _
      | cons object rest => exact .pure _
  | _ => exact .fail hstart

theorem simple {inMethod : Bool} (h : Enough (fuel + 1) 12 s.cursor) :
    Runs true 0 (simple fuel inMethod) s := by
  have all := ofFuel fuel
  have hlinked := h.linked
  rw [Parser.simple]
  refine .gets ?_
  split
  · next hreturn =>
    split
    · refine .bind (.advancePlain hlinked (by rw [hreturn]; rfl)) fun _ t _ ht => .gets ?_
      split
      · exact .pure _
      · exact .bind (all.behind h ht) fun _ _ _ _ => .pure _
    · exact .gets (.fail rfl)
  · next hprint =>
    refine .bind (.advancePlain hlinked (by rw [hprint]; rfl)) fun _ t _ ht => .gets ?_
    split
    · exact .pure _
    · exact .bind (all.expressions (h.earn ht (by decide))) fun _ _ _ _ => .pure _
  · refine .gets
      (.bind (all.expression (h.spend (by decide))) fun target t _ ht => .gets ?_)
    split
    · next hequals =>
      exact .assignment (ht.linked hlinked) (ht.line rfl).symm hequals fun u hu =>
        all.behind h (ht.trans hu)
    · exact .pure _

theorem parent (h : Linked s.cursor.stream) : Runs true 0 parent s := by
  refine .gets ?_
  split
  · next hparen =>
    refine .bind (.advanceChar h hparen) fun _ t _ ht =>
      .gets (.bind (.takeId (ht.linked h)) fun name u _ hu => .gets ?_)
    cases u.classes.latest? name with
    | none => exact .fail (hu.line rfl).symm
    | some cls => exact .bind (.takeChar ((ht.on hu).linked h) _) fun _ _ _ _ => .pure _
  · exact .pure _

theorem parameters (h : Enough fuel 1 s.cursor) : Runs true 0 (parameters fuel) s := by
  induction fuel generalizing s with
  | zero => exact absurd h.pays (by omega)
  | succ fuel ih =>
    refine .gets ?_
    split
    · next hcomma =>
      refine .bind (.advanceChar h.linked hcomma) fun _ t _ ht =>
        .bind (.takeId (ht.linked h.linked)) fun _ u _ hu => ?_
      exact .bind (ih (h.earn (ht.on hu) (by decide))) fun _ _ _ _ => .pure _
    · exact .pure _

theorem methodHeader (h : Enough (fuel + 1) 1 s.cursor) :
    Runs true 1 (methodHeader fuel) s := by
  have hlinked := h.linked
  refine .bindFirst (.take hlinked (by simp) (by simp)) fun _ t _ ht => ?_
  refine .bind (.takeId (ht.linked hlinked)) fun name u _ hu => ?_
  have hsu := ht.on hu
  refine .bind (.takeChar (hsu.linked hlinked) _) fun _ v _ hv => .gets (.gets ?_)
  have hsv := hsu.on hv
  split
  · next hself =>
    refine .bind (.advancePlain (hsv.linked hlinked) (by rw [beq_iff_eq.mp hself]; rfl))
      fun _ w _ hw => ?_
    have hsw := hsv.on hw
    refine .bind (.parameters (h.earn hsw (by decide))) fun _ x _ hx => ?_
    have hsx := hsw.on hx
    refine .bind (.takeChar (hsx.linked hlinked) _) fun _ y _ hy => ?_
    exact .bind (.takeChar ((hsx.on hy).linked hlinked) _) fun _ _ _ _ => .pure _
  · exact .fail rfl

/-! ## Blocks -/

theorem openBlock (h : Linked s.cursor.stream) : Runs false 1 openBlock s := by
  refine .bindFirst (.take h (by simp) (by simp)) fun _ t _ ht =>
    .bind (.check line_of_expect) fun _ u hcheck _ => ?_
  obtain ⟨hok, rfl⟩ := ok_of_check hcheck
  have htoken := token_of_expect_indent hok
  exact (Runs.advance (ht.linked h) (by simp [htoken]) (by simp)).weaken (Nat.zero_le 1)

theorem closeBlock (h : Linked s.cursor.stream) : Runs false 0 closeBlock s := by
  refine .gets ?_
  split
  · next hdedent =>
      exact (Runs.advance h (by simp [beq_iff_eq.mp hdedent]) (by simp)).weaken
        (Nat.zero_le 1)
  · exact .pure _

/-- All productions for statements run with enough fuel. -/
structure Statements (fuel : Nat) : Prop where
  statement : ∀ {inMethod s},
    Enough fuel 12 s.cursor → Runs false 1 (statement fuel inMethod) s
  statements : ∀ {stop inMethod s},
    Enough fuel 13 s.cursor → Runs false 0 (statements fuel stop inMethod) s
  suite : ∀ {inMethod s}, Enough fuel 1 s.cursor → Runs false 0 (suite fuel inMethod) s
  conditional : ∀ {inMethod s}, Enough fuel 1 s.cursor → s.cursor.token = .keyword .ifKw →
    Runs false 1 (conditional fuel inMethod) s
  declaration : ∀ {s}, Enough fuel 1 s.cursor → s.cursor.token = .keyword .classKw →
    Runs false 1 (declaration fuel) s
  methods : ∀ {s}, Enough fuel 2 s.cursor → Runs false 0 (methods fuel) s
  method : ∀ {s}, Enough fuel 1 s.cursor → Runs false 1 (method fuel) s

theorem statement_succ (ih : Statements fuel) {inMethod : Bool}
    (h : Enough (fuel + 1) 12 s.cursor) :
    Runs false 1 (statement (fuel + 1) inMethod) s := by
  rw [statement]
  refine .gets ?_
  split
  · next hclass => exact ih.declaration (h.spend (by decide)) hclass
  · next hif => exact ih.conditional (h.spend (by decide)) hif
  · refine .bind (simple h).anywhere fun _ t _ ht => ?_
    exact .bindFirst (.take (ht.linked h.linked) (by simp) (by simp)) fun _ _ _ _ =>
      .pure _

theorem statements_succ (ih : Statements fuel) {stop : Token → Bool} {inMethod : Bool}
    (h : Enough (fuel + 1) 13 s.cursor) :
    Runs false 0 (statements (fuel + 1) stop inMethod) s := by
  rw [statements]
  refine .gets ?_
  split
  · exact .pure _
  · refine .bind (ih.statement (h.spend (by decide))) fun _ t _ ht => ?_
    exact .bind (ih.statements (h.earn ht (by decide))) fun _ _ _ _ => .pure _

theorem suite_succ (ih : Statements fuel) {inMethod : Bool}
    (h : Enough (fuel + 1) 1 s.cursor) :
    Runs false 0 (suite (fuel + 1) inMethod) s := by
  rw [suite]
  refine .bind (.openBlock h.linked) fun _ t _ ht =>
    .bind (ih.statements (h.earn ht (by decide))) fun _ u _ hu => ?_
  exact .bind (.closeBlock ((ht.on hu).linked h.linked)) fun _ _ _ _ => .pure _

theorem conditional_succ (ih : Statements fuel) {inMethod : Bool}
    (h : Enough (fuel + 1) 1 s.cursor) (htoken : s.cursor.token = .keyword .ifKw) :
    Runs false 1 (conditional (fuel + 1) inMethod) s := by
  have hlinked := h.linked
  rw [conditional]
  refine .bindFirst (.advancePlain hlinked (by rw [htoken]; rfl)) fun _ t _ ht => ?_
  have hcondition : Runs true 0 (Parser.expression fuel .disjunction) t :=
    (ofFuel fuel).expression (h.earn ht (by decide))
  refine .bind hcondition.anywhere fun _ u _ hu => ?_
  have hsu := ht.on hu
  refine .bind (.takeChar (hsu.linked hlinked) _) fun _ v _ hv => ?_
  have hsv := hsu.on hv
  refine .bind (ih.suite (h.earn hsv (by decide))) fun _ w _ hw => .gets ?_
  have hsw := hsv.on hw
  split
  · next helse =>
    refine .bind (.advancePlain (hsw.linked hlinked) (by rw [beq_iff_eq.mp helse]; rfl))
      fun _ x _ hx => ?_
    have hsx := hsw.on hx
    refine .bind (.takeChar (hsx.linked hlinked) _) fun _ y _ hy => ?_
    exact .bind (ih.suite (h.earn (hsx.on hy) (by decide))) fun _ _ _ _ => .pure _
  · exact .pure _

theorem declaration_succ (ih : Statements fuel) (h : Enough (fuel + 1) 1 s.cursor)
    (htoken : s.cursor.token = .keyword .classKw) :
    Runs false 1 (declaration (fuel + 1)) s := by
  have hlinked := h.linked
  rw [declaration]
  refine .bindFirst (.advancePlain hlinked (by rw [htoken]; rfl)) fun _ t _ ht => ?_
  refine .bind (.takeId (ht.linked hlinked)) fun _ u _ hu => ?_
  have hsu := ht.on hu
  refine .bind (parent (hsu.linked hlinked)).anywhere fun _ v _ hv => ?_
  have hsv := hsu.on hv
  refine .bind (.takeChar (hsv.linked hlinked) _) fun _ w _ hw => ?_
  have hsw := hsv.on hw
  refine .bind (.openBlock (hsw.linked hlinked)) fun _ x _ hx => ?_
  have hsx := hsw.on hx
  refine .bind (ih.methods (h.earn hsx (by decide))) fun _ y _ hy => ?_
  refine .bind (.closeBlock ((hsx.on hy).linked hlinked)) fun _ z _ hz => ?_
  exact .bind (of_done rfl .refl) fun _ _ _ _ => .pure _

theorem methods_succ (ih : Statements fuel) (h : Enough (fuel + 1) 2 s.cursor) :
    Runs false 0 (methods (fuel + 1)) s := by
  rw [methods]
  refine .bind (ih.method (h.spend (by decide))) fun _ t _ ht => .gets ?_
  split
  · exact .pure _
  · exact .bind (ih.methods (h.earn ht (by decide))) fun _ _ _ _ => .pure _

theorem method_succ (ih : Statements fuel) (h : Enough (fuel + 1) 1 s.cursor) :
    Runs false 1 (method (fuel + 1)) s := by
  rw [method]
  refine .bindFirst (methodHeader h).anywhere fun _ t _ ht => ?_
  exact .bind (ih.suite (h.earn ht (by decide))) fun _ _ _ _ => .pure _

theorem statementsOfFuel (fuel : Nat) : Statements fuel := by
  induction fuel with
  | zero => constructor <;> (intros; exact absurd (Enough.pays ‹_›) (by omega))
  | succ fuel ih =>
    exact {
      statement := statement_succ ih
      statements := statements_succ ih
      suite := suite_succ ih
      conditional := conditional_succ ih
      declaration := declaration_succ ih
      methods := methods_succ ih
      method := method_succ ih }

end Runs

end Mint
