import Mint.Proofs.Parser.Counted
import Mint.Proofs.Parser.Renumbering
import Mint.Proofs.Parser.StatementSound

/-!
# Parsing moves on and ends

A production that succeeds has moved the cursor, and only over tokens that are not the
end of the input (`Cursor.Passes`). That is why no loop of the parser can spin, and it
also bounds the work: tokens pay for calls (`Counted.Pays`). A token pays for
twenty-four of them, which is more than any production leaves unpaid. Both are shown in
one walk over the productions, together with the fact that counting changes nothing.

A production does not use what its first token is worth. That is left to whoever called
it: a loop pays its next turn with the first token of this one.
-/

namespace Mint

namespace Cursor

/-- The second cursor is behind those tokens of the first, and none of them is the end
of the input. -/
structure Passes (c : Cursor) (lexemes : List Lexeme) (c' : Cursor) : Prop where
  stream : c.stream = lexemes.map .token ++ c'.stream
  passed : c'.passed = lexemes.reverse ++ c.passed
  eof : ∀ lexeme ∈ lexemes, lexeme.token ≠ Token.eof

variable {c c' c'' : Cursor} {ls ls' : List Lexeme}

theorem Passes.refl : c.Passes [] c := ⟨rfl, rfl, List.forall_mem_nil _⟩

theorem Passes.trans (h : c.Passes ls c') (h' : c'.Passes ls' c'') :
    c.Passes (ls ++ ls') c'' where
  stream := by rw [h.stream, h'.stream, List.map_append, List.append_assoc]
  passed := by rw [h'.passed, h.passed, List.reverse_append, List.append_assoc]
  eof := List.forall_mem_append.mpr ⟨h.eof, h'.eof⟩

/-- The end of the input stays ahead. -/
theorem Passes.closed (h : c.Passes ls c') (hc : c.Closed) : c'.Closed := by
  obtain ⟨n, hn⟩ := hc
  rw [h.stream, List.getLast?_append, Cursor.stream, List.getLast?_cons,
    Option.some_or] at hn
  exact ⟨n, by rw [Cursor.stream, List.getLast?_cons, hn]⟩

/-- The number of tokens that can still be read before an error, the current one among
them. -/
def left (c : Cursor) : Nat := (Reading.leading c.stream).1.length

theorem Passes.left_eq (h : c.Passes ls c') : c.left = ls.length + c'.left := by
  rw [left, left, h.stream]
  clear h
  induction ls with
  | nil => exact (Nat.zero_add _).symm
  | cons l ls ih =>
    rw [List.map_cons, List.cons_append, Reading.leading, List.length_cons,
      List.length_cons, ih]
    omega

end Cursor

/-- What was taken was passed. -/
theorem ParserState.Takes.passes {s t : ParserState} {ts : List Token} (h : s.Takes ts t)
    (heof : Token.eof ∉ ts) :
    ∃ ls, s.cursor.Passes ls t.cursor ∧ ls.length = ts.length := by
  obtain ⟨ls, rfl, hstream, hpassed⟩ := h.lexemes
  refine ⟨ls, ⟨hstream, hpassed, fun lexeme hmem heq => heof ?_⟩,
    (List.length_map ..).symm⟩
  exact heq ▸ List.mem_map_of_mem hmem

theorem Token.ne_eof_of_isLayout {token : Token} (h : token.isLayout = false) :
    token ≠ Token.eof := by
  rintro rfl
  cases h

theorem Plain.eof_not_mem {ts : List Token} (h : Plain ts) : Token.eof ∉ ts :=
  fun hmem => Token.ne_eof_of_isLayout (h _ hmem) rfl

namespace Counted

open Mint.Parser (Level)

/-! ## Rules -/

/-- The run from `s` is that of the parser. When it is done it has passed at least
`taken` tokens, and these have paid for nothing yet; every other token has paid for
twenty-four calls, and `free` calls are not paid for. However the run ends, it makes no
more calls than these and what all tokens that are left could pay for. -/
structure Pays (taken free : Nat) {α : Type} (x : Counted α) (p : Parser α)
    (s : ParserState) : Prop where
  parser_eq : x.parser s = p s
  done : s.cursor.Closed → ∀ {a t}, p s = .done (a, t) →
    ∃ ls, s.cursor.Passes ls t.cursor ∧ taken ≤ ls.length ∧
      x.calls s + 24 * taken ≤ free + 24 * ls.length
  calls_le : s.cursor.Closed → x.calls s ≤ free + 24 * s.cursor.left

namespace Pays

variable {α β : Type} {m n c d k e : Nat} {s : ParserState} {x : Counted α} {p : Parser α}
  {f : α → Counted β} {g : α → Parser β}

theorem weaken (h : Pays m c x p s) (hfree : c ≤ d) (htaken : n ≤ m) :
    Pays n d x p s where
  parser_eq := h.parser_eq
  done := by
    intro hs a t hdone
    obtain ⟨ls, hpasses, hle, hcalls⟩ := h.done hs hdone
    exact ⟨ls, hpasses, by omega, by omega⟩
  calls_le := by
    intro hs
    have hcalls := h.calls_le hs
    omega

theorem call (h : Pays m c x p s) : Pays m (c + 1) (call x) p s where
  parser_eq := h.parser_eq
  done := by
    intro hs a t hdone
    obtain ⟨ls, hpasses, hle, hcalls⟩ := h.done hs hdone
    refine ⟨ls, hpasses, hle, ?_⟩
    show x.calls s + 1 + 24 * m ≤ c + 1 + 24 * ls.length
    omega
  calls_le := by
    intro hs
    have hcalls := h.calls_le hs
    show x.calls s + 1 ≤ c + 1 + 24 * s.cursor.left
    omega

/-- Sequences in general. The conditions are about the tokens that stay unused, and
about the calls of a run that ends in its first part, of one that fails in the second,
and of one that is done. -/
theorem bind_of_le (hx : Pays m c x p s) (hf : ∀ a t, Pays n d (f a) (g a) t)
    (htaken : k ≤ m + n) (hfirst : c ≤ e) (hfailed : c + d ≤ e + 24 * m)
    (hdone : c + d + 24 * k ≤ e + 24 * (m + n)) :
    Pays k e (x >>= f) (p >>= g) s where
  parser_eq := by
    show (x.parser >>= fun a => (f a).parser) s = (p >>= g) s
    rw [Run.bind_apply, Run.bind_apply, hx.parser_eq]
    cases p s with
    | done r => exact (hf r.1 r.2).parser_eq
    | failed r => rfl
    | starved => rfl
  done := by
    intro hs b u hbind
    obtain ⟨a, t, hp, hg⟩ := Run.bind_eq_done_iff.mp hbind
    obtain ⟨ls, hpasses, hle, hcalls⟩ := hx.done hs hp
    obtain ⟨ls', hpasses', hle', hcalls'⟩ := (hf a t).done (hpasses.closed hs) hg
    have hsum : (x >>= f).calls s = x.calls s + (f a).calls t := by
      show x.calls s + _ = _
      rw [hx.parser_eq, hp]
    refine ⟨ls ++ ls', hpasses.trans hpasses', ?_, ?_⟩
    · rw [List.length_append]
      omega
    · rw [hsum, List.length_append]
      omega
  calls_le := by
    intro hs
    have hcalls := hx.calls_le hs
    show x.calls s + _ ≤ _
    rw [hx.parser_eq]
    cases hp : p s with
    | done r =>
      -- the second run has what the first has left
      obtain ⟨ls, hpasses, hle, hpaid⟩ := hx.done hs hp
      have hcalls' := (hf r.1 r.2).calls_le (hpasses.closed hs)
      have hleft := hpasses.left_eq
      simp only
      omega
    | failed r =>
      simp only
      omega
    | starved =>
      simp only
      omega

/-- The tokens of the first run stay unused. -/
theorem bind (hx : Pays m c x p s) (hle : c ≤ e)
    (hf : ∀ a t, Pays 0 (e - c) (f a) (g a) t) :
    Pays m e (x >>= f) (p >>= g) s :=
  bind_of_le hx hf (by omega) hle (by omega) (by omega)

/-- The tokens of the second run stay unused; the first may have taken none. -/
theorem bind_right (hx : Pays 0 c x p s) (hle : c ≤ e)
    (hf : ∀ a t, Pays n (e - c) (f a) (g a) t) :
    Pays n e (x >>= f) (p >>= g) s :=
  bind_of_le hx hf (by omega) hle (by omega) (by omega)

/-- A token of the first run pays for the second. -/
theorem onward (hx : Pays 1 c x p s) (hf : ∀ a t, Pays n 24 (f a) (g a) t) :
    Pays n c (x >>= f) (p >>= g) s :=
  bind_of_le hx hf (by omega) (Nat.le_refl c) (by omega) (by omega)

/-- One of two tokens pays for the second run. -/
theorem block (hx : Pays 2 c x p s) (hf : ∀ a t, Pays 0 24 (f a) (g a) t) :
    Pays 1 c (x >>= f) (p >>= g) s :=
  bind_of_le hx hf (by omega) (Nat.le_refl c) (by omega) (by omega)

/-- Looking at the state is no step. -/
theorem gets {h : ParserState → α} (hf : Pays n c (f (h s)) (g (h s)) s) :
    Pays n c (Counted.move (Run.gets h) >>= f) (Run.gets h >>= g) s where
  parser_eq := hf.parser_eq
  done := by
    intro hs a t hdone
    obtain ⟨ls, hpasses, hle, hcalls⟩ := hf.done hs hdone
    refine ⟨ls, hpasses, hle, ?_⟩
    show 0 + (f (h s)).calls s + _ ≤ _
    rwa [Nat.zero_add]
  calls_le := by
    intro hs
    show 0 + (f (h s)).calls s ≤ _
    rw [Nat.zero_add]
    exact hf.calls_le hs

theorem move (h : s.cursor.Closed → ∀ {a t}, p s = .done (a, t) →
    ∃ ls, s.cursor.Passes ls t.cursor ∧ m ≤ ls.length) : Pays m c (move p) p s where
  parser_eq := rfl
  done := by
    intro hs a t hdone
    obtain ⟨ls, hpasses, hle⟩ := h hs hdone
    refine ⟨ls, hpasses, hle, ?_⟩
    show 0 + 24 * m ≤ c + 24 * ls.length
    omega
  calls_le := fun _ => Nat.zero_le _

theorem of_takes (h : s.cursor.Closed → ∀ {a t}, p s = .done (a, t) →
    ∃ ts, s.Takes ts t ∧ Token.eof ∉ ts ∧ m ≤ ts.length) :
    Pays m c (Counted.move p) p s := by
  refine move fun hs {a t} hdone => ?_
  obtain ⟨ts, htakes, heof, hle⟩ := h hs hdone
  obtain ⟨ls, hpasses, hlength⟩ := htakes.passes heof
  exact ⟨ls, hpasses, by omega⟩

theorem pure (a : α) : Pays 0 c (Pure.pure a) (Pure.pure a) s := by
  refine move (p := Pure.pure a) fun _ {_ _} hdone => ?_
  cases hdone
  exact ⟨[], .refl, Nat.le_refl 0⟩

theorem starve : Pays m c (Counted.move Run.starve : Counted α) Run.starve s :=
  move fun _ {_ _} hdone => by cases hdone

theorem fail (e : ParseError) :
    Pays m c (Counted.move (Run.fail e) : Counted α) (Run.fail e) s :=
  move fun _ {_ _} hdone => by cases hdone

theorem unexpected (expected : Expectation) :
    Pays m c (Counted.move (Parser.unexpected expected) : Counted α)
      (Parser.unexpected expected) s :=
  move fun _ {_ _} hdone => by cases hdone

/-! ## Moves -/

theorem advance {token : Token} (htoken : s.cursor.token = token)
    (hne : token ≠ Token.eof) :
    Pays 1 c (Counted.move Parser.advance) Parser.advance s := by
  refine of_takes fun hs {_ t} hdone =>
    ⟨[token], Parser.takes_of_advance hs htoken hne hdone, ?_, Nat.le_refl 1⟩
  rwa [List.mem_singleton, eq_comm]

/-- A step over a character that is there. -/
theorem advanceChar {ch : Char} (htoken : s.cursor.token.isChar ch = true) :
    Pays 1 c (Counted.move Parser.advance) Parser.advance s :=
  advance (Parser.isChar_iff.mp htoken) Token.noConfusion

theorem take {token : Token} (hne : token ≠ Token.eof) :
    Pays 1 c (Counted.move (Parser.take token)) (Parser.take token) s := by
  refine of_takes fun hs {_ t} hdone =>
    ⟨[token], Parser.takes_of_take hs hne hdone, ?_, Nat.le_refl 1⟩
  rwa [List.mem_singleton, eq_comm]

theorem takeChar (ch : Char) :
    Pays 1 c (Counted.move (Parser.takeChar ch)) (Parser.takeChar ch) s :=
  take Token.noConfusion

theorem takeId : Pays 1 c (Counted.move Parser.takeId) Parser.takeId s := by
  refine of_takes fun hs {name t} hdone =>
    ⟨[.id name], Parser.takes_of_takeId hs hdone, ?_, Nat.le_refl 1⟩
  exact (Plain.cons rfl .nil).eof_not_mem

theorem openBlock : Pays 2 c (Counted.move Parser.openBlock) Parser.openBlock s := by
  refine of_takes fun hs {_ t} hdone => ?_
  obtain ⟨u, hnewline, hindent⟩ := Parser.openBlock_sound hs hdone
  exact ⟨_, hnewline.trans hindent, by decide, Nat.le_refl 2⟩

theorem closeBlock : Pays 0 c (Counted.move Parser.closeBlock) Parser.closeBlock s := by
  refine of_takes fun hs {_ t} hdone => ?_
  rcases Parser.takes_of_closeBlock hs hdone with htakes | rfl
  · exact ⟨_, htakes, by decide, Nat.zero_le _⟩
  · exact ⟨[], .nil, List.not_mem_nil, Nat.le_refl 0⟩

theorem parent : Pays 0 c (Counted.move Parser.parent) Parser.parent s := by
  refine of_takes fun hs {_ t} hdone => ?_
  obtain ⟨ts, htakes, hparent⟩ := Parser.parent_sound hs hdone
  exact ⟨ts, htakes, hparent.plain.eof_not_mem, Nat.zero_le _⟩

/-- A declaration moves nothing. -/
theorem declare (cls : Class) :
    Pays 0 c (Counted.move (Parser.declare cls)) (Parser.declare cls) s := by
  refine move fun _ {_ _} hdone => ?_
  cases hdone
  exact ⟨[], .refl, Nat.le_refl 0⟩

end Pays

/-! ## Expressions -/

theorem segments_pays (fuel : Nat) (s : ParserState) :
    Pays 0 1 (segments fuel) (Parser.segments fuel) s := by
  induction fuel generalizing s with
  | zero => exact .starve
  | succ fuel ih =>
    refine .call (.gets ?_)
    split
    · next hdot =>
      refine .onward (.advanceChar hdot) fun _ _ => .onward .takeId fun _ u => ?_
      exact .bind (ih u) (by decide) fun _ _ => .pure _
    · exact .pure _

/-- The calls that an expression does not pay for: one for each level down to the atom,
and one for the loop at each level that finds no operator. -/
def free (level : Level) : Nat := 2 * Grammar.height level + 6

/-- What the productions for expressions cost with the given fuel. -/
structure PaysExpressions (fuel : Nat) : Prop where
  expression : ∀ level s,
    Pays 1 (free level) (expression fuel level) (Parser.expression fuel level) s
  chain : ∀ level left s,
    Pays 0 1 (chain fuel level left) (Parser.chain fuel level left) s
  calling : ∀ object s, Pays 0 1 (calling fuel object) (Parser.calls fuel object) s
  atom : ∀ s, Pays 1 4 (atom fuel) (Parser.atom fuel) s
  name : ∀ s, Pays 1 3 (name fuel) (Parser.name fuel) s
  arguments : ∀ s, Pays 1 1 (arguments fuel) (Parser.arguments fuel) s
  expressions : ∀ s, Pays 1 19 (expressions fuel) (Parser.expressions fuel) s

variable {fuel : Nat}

/-- A token can pay for the expression behind it. -/
theorem PaysExpressions.operand (ih : PaysExpressions fuel) (level : Level)
    (s : ParserState) :
    Pays 0 18 (Counted.expression fuel level) (Parser.expression fuel level) s :=
  (ih.expression level s).weaken (by cases level <;> decide) (Nat.zero_le 1)

theorem expression_pays (ih : PaysExpressions fuel) (level : Level) (s : ParserState) :
    Pays 1 (free level) (expression (fuel + 1) level)
      (Parser.expression (fuel + 1) level) s := by
  cases level with
  | disjunction | conjunction | sum | product =>
    exact .call (.bind (ih.expression _ s) (by decide) fun left t => ih.chain _ left t)
  | negation =>
    rw [expression, Parser.expression]
    refine .call (.gets ?_)
    split
    · next hnot =>
      refine .onward (.advance (beq_iff_eq.mp hnot) (by decide)) fun _ t => ?_
      exact .bind (ih.expression _ t) (by decide) fun _ _ => .pure _
    · exact (ih.expression _ s).weaken (by decide) (Nat.le_refl 1)
  | comparison =>
    rw [expression, Parser.expression]
    refine .call (.bind (ih.expression _ s) (by decide) fun left t => .gets ?_)
    cases hop : Parser.comparator? t.cursor.token with
    | none => exact .pure _
    | some op =>
      refine .onward (.advance rfl
        (Token.ne_eof_of_isLayout (Grammar.isLayout_of_comparator? hop))) fun _ u => ?_
      exact .bind_right (ih.operand _ u) (by decide) fun _ _ => .pure _
  | sign =>
    rw [expression, Parser.expression]
    refine .call (.gets ?_)
    split
    · next hminus =>
      exact .onward (.advanceChar hminus) fun _ t =>
        .bind (ih.expression _ t) (by decide) fun _ _ => .pure _
    · exact .bind (ih.atom s) (by decide) fun object t => ih.calling object t

theorem chain_pays (ih : PaysExpressions fuel) (level : Level) (left : Node)
    (s : ParserState) :
    Pays 0 1 (chain (fuel + 1) level left) (Parser.chain (fuel + 1) level left) s := by
  rw [chain, Parser.chain]
  refine .call (.gets ?_)
  cases hop : level.join? s.cursor.token with
  | none => exact .pure _
  | some join =>
    refine .onward (.advance rfl
      (Token.ne_eof_of_isLayout (Grammar.isLayout_of_join? hop))) fun _ t => ?_
    exact .bind_right (ih.operand _ t) (by decide) fun right u =>
      (ih.chain level _ u).weaken (by decide) (Nat.le_refl 0)

theorem calling_pays (ih : PaysExpressions fuel) (object : Node) (s : ParserState) :
    Pays 0 1 (calling (fuel + 1) object) (Parser.calls (fuel + 1) object) s := by
  rw [calling, Parser.calls]
  refine .call (.gets ?_)
  split
  · next hdot =>
    refine .onward (.advanceChar hdot) fun _ _ => .onward .takeId fun method u => .gets ?_
    split
    · exact .onward ((ih.arguments u).weaken (by decide) (Nat.le_refl 1)) fun args v =>
        (ih.calling _ v).weaken (by decide) (Nat.le_refl 0)
    · exact .unexpected _
  · exact .pure _

theorem atom_pays (ih : PaysExpressions fuel) (s : ParserState) :
    Pays 1 4 (atom (fuel + 1)) (Parser.atom (fuel + 1)) s := by
  rw [atom, Parser.atom]
  refine .call (.gets ?_)
  cases hconst : Parser.constant? s.cursor.token with
  | some node =>
    have hne := Token.ne_eof_of_isLayout (Grammar.isLayout_of_constant? hconst)
    exact .bind (.advance rfl hne) (Nat.zero_le 3) fun _ _ => .pure _
  | none =>
    cases htoken : s.cursor.token with
    | id first => exact ih.name s
    | char ch =>
      by_cases hparen : ch = '('
      · subst hparen
        refine .onward (.advance htoken (by decide)) fun _ t => ?_
        exact .bind (ih.expression _ t) (by decide) fun _ _ =>
          .onward (.takeChar _) fun _ _ => .pure _
      · have hother : Pays 1 3 (move (Parser.unexpected .expression) : Counted Node)
            (Parser.unexpected .expression) s :=
          .unexpected _
        simpa [hparen] using hother
    | _ => exact .unexpected _

theorem name_pays (ih : PaysExpressions fuel) (s : ParserState) :
    Pays 1 3 (name (fuel + 1)) (Parser.name (fuel + 1)) s := by
  rw [name, Parser.name]
  refine .call (.gets (.bind .takeId (Nat.zero_le 2) fun first t => ?_))
  refine .bind (segments_pays fuel t) (by decide) fun more u => .gets ?_
  split
  · cases more.getLast? with
    | some method =>
      exact .bind ((ih.arguments u).weaken (Nat.le_refl 1) (Nat.zero_le 1))
        (Nat.le_refl 1) fun _ _ => .pure _
    | none =>
      dsimp only
      split
      · refine .onward (.takeChar _) fun _ v =>
          .bind_right (ih.operand _ v) (by decide) fun operand _ => ?_
        exact .onward (.takeChar _) fun _ _ => .pure _
      · refine .gets ?_
        cases u.classes.latest? first with
        | some cls =>
          exact .bind ((ih.arguments u).weaken (Nat.le_refl 1) (Nat.zero_le 1))
            (Nat.le_refl 1) fun _ _ => .pure _
        | none => exact .fail _
  · exact .pure _

theorem arguments_pays (ih : PaysExpressions fuel) (s : ParserState) :
    Pays 1 1 (arguments (fuel + 1)) (Parser.arguments (fuel + 1)) s := by
  rw [arguments, Parser.arguments]
  refine .call (.onward (.takeChar _) fun _ t => .gets ?_)
  split
  · exact .bind_right (.pure _) (Nat.zero_le 24) fun _ _ =>
      .bind (.takeChar _) (Nat.zero_le 24) fun _ _ => .pure _
  · exact .bind (ih.expressions t) (by decide) fun _ _ =>
      .onward (.takeChar _) fun _ _ => .pure _

theorem expressions_pays (ih : PaysExpressions fuel) (s : ParserState) :
    Pays 1 19 (expressions (fuel + 1)) (Parser.expressions (fuel + 1)) s := by
  rw [expressions, Parser.expressions]
  refine .call (.bind (ih.expression _ s) (by decide) fun first t => .gets ?_)
  split
  · next hcomma =>
    refine .onward (.advanceChar hcomma) fun _ u => ?_
    exact .bind ((ih.expressions u).weaken (Nat.le_refl 19) (Nat.zero_le 1)) (by decide)
      fun _ _ => .pure _
  · exact .pure _

theorem paysExpressions (fuel : Nat) : PaysExpressions fuel := by
  induction fuel with
  | zero => constructor <;> (intros; exact .starve)
  | succ fuel ih =>
    exact {
      expression := expression_pays ih
      chain := chain_pays ih
      calling := calling_pays ih
      atom := atom_pays ih
      name := name_pays ih
      arguments := arguments_pays ih
      expressions := expressions_pays ih }

/-! ## Statements and declarations -/

theorem assignment_pays (start : Nat) (target : Node) {x : Counted Node} {p : Parser Node}
    {s : ParserState} (hequals : s.cursor.token.isChar '=' = true)
    (hvalue : ∀ t, Pays 0 18 x p t) :
    Pays 0 1 (assignment start target x) (Parser.assignment start target p) s := by
  cases target with
  | path segments =>
    rw [assignment, Parser.assignment]
    refine .call ?_
    cases segments.getLast? with
    | none => exact .fail _
    | some last =>
      refine .onward (.advanceChar hequals) fun _ t =>
        .bind (hvalue t) (by decide) fun _ _ => ?_
      cases segments.dropLast with
      | nil => exact .pure _
      | cons object more => exact .pure _
  | _ => exact .call (.fail _)

theorem simple_pays (fuel : Nat) (inMethod : Bool) (s : ParserState) :
    Pays 0 20 (simple fuel inMethod) (Parser.simple fuel inMethod) s := by
  have all := paysExpressions fuel
  have other : Pays 0 19 (do
      let start ← move Parser.line
      let target ← expression fuel .disjunction
      if ← move (Parser.atChar '=') then
        assignment start target (expression fuel .disjunction)
      else
        return target) (do
      let start ← Parser.line
      let target ← Parser.expression fuel .disjunction
      if ← Parser.atChar '=' then
        Parser.assignment start target (Parser.expression fuel .disjunction)
      else
        return target) s := by
    refine .gets (.bind (all.operand _ s) (by decide) fun target t => .gets ?_)
    split
    · next hequals => exact assignment_pays _ _ hequals fun u => all.operand _ u
    · exact .pure _
  rw [simple, Parser.simple]
  refine .call (.gets ?_)
  cases htoken : s.cursor.token with
  | keyword word =>
    cases word with
    | returnKw =>
      cases inMethod with
      | false => exact .gets (.fail _)
      | true =>
        refine .onward (.advance htoken (by decide)) fun _ t => .gets ?_
        split
        · exact .pure _
        · exact .bind (all.operand _ t) (by decide) fun _ _ => .pure _
    | printKw =>
      refine .onward (.advance htoken (by decide)) fun _ t => .gets ?_
      split
      · exact .pure _
      · exact .bind ((all.expressions t).weaken (Nat.le_refl 19) (Nat.zero_le 1))
          (by decide) fun _ _ => .pure _
    | _ => exact other
  | _ => exact other

theorem parameters_pays (fuel : Nat) (s : ParserState) :
    Pays 0 1 (parameters fuel) (Parser.parameters fuel) s := by
  induction fuel generalizing s with
  | zero => exact .starve
  | succ fuel ih =>
    refine .call (.gets ?_)
    split
    · next hcomma =>
      refine .onward (.advanceChar hcomma) fun _ _ => .onward .takeId fun _ u => ?_
      exact .bind (ih u) (by decide) fun _ _ => .pure _
    · exact .pure _

theorem methodHeader_pays (fuel : Nat) (s : ParserState) :
    Pays 1 1 (methodHeader fuel) (Parser.methodHeader fuel) s := by
  rw [methodHeader, Parser.methodHeader]
  refine .call (.onward (.take (by decide)) fun _ _ =>
    .onward .takeId fun name _ => .onward (.takeChar _) fun _ t => ?_)
  refine .gets (.gets ?_)
  split
  · next hself =>
    refine .bind (.advance (beq_iff_eq.mp hself) (by decide)) (Nat.zero_le 24)
      fun _ u => ?_
    refine .bind (parameters_pays fuel u) (by decide) fun _ _ =>
      .onward (.takeChar _) fun _ _ => ?_
    exact .onward (.takeChar _) fun _ _ => .pure _
  · exact .fail _

/-- What the productions for statements and declarations cost with the given fuel. The
two that are chosen by their first token do not look at it again. -/
structure PaysStatements (fuel : Nat) : Prop where
  statement : ∀ inMethod s,
    Pays 1 21 (statement fuel inMethod) (Parser.statement fuel inMethod) s
  statements : ∀ stop inMethod s,
    Pays 0 22 (statements fuel stop inMethod) (Parser.statements fuel stop inMethod) s
  suite : ∀ inMethod s, Pays 1 1 (suite fuel inMethod) (Parser.suite fuel inMethod) s
  conditional : ∀ inMethod s, s.cursor.token = .keyword .ifKw →
    Pays 1 1 (conditional fuel inMethod) (Parser.conditional fuel inMethod) s
  declaration : ∀ s, s.cursor.token = .keyword .classKw →
    Pays 1 1 (declaration fuel) (Parser.declaration fuel) s
  methods : ∀ s, Pays 0 4 (methods fuel) (Parser.methods fuel) s
  method : ∀ s, Pays 1 3 (method fuel) (Parser.method fuel) s

theorem statement_pays (ih : PaysStatements fuel) (inMethod : Bool) (s : ParserState) :
    Pays 1 21 (statement (fuel + 1) inMethod)
      (Parser.statement (fuel + 1) inMethod) s := by
  have other : Pays 1 20 (do
      let node ← simple fuel inMethod
      move (Parser.take Token.newline)
      return node) (do
      let node ← Parser.simple fuel inMethod
      Parser.take Token.newline
      return node) s :=
    .bind_right (simple_pays fuel inMethod s) (Nat.le_refl 20) fun _ _ =>
      .bind (.take (by decide)) (Nat.le_refl 0) fun _ _ => .pure _
  rw [statement, Parser.statement]
  refine .call (.gets ?_)
  cases htoken : s.cursor.token with
  | keyword word =>
    cases word with
    | classKw => exact (ih.declaration s htoken).weaken (by decide) (Nat.le_refl 1)
    | ifKw => exact (ih.conditional inMethod s htoken).weaken (by decide) (Nat.le_refl 1)
    | _ => exact other
  | _ => exact other

theorem statements_pays (ih : PaysStatements fuel) (stop : Token → Bool) (inMethod : Bool)
    (s : ParserState) :
    Pays 0 22 (statements (fuel + 1) stop inMethod)
      (Parser.statements (fuel + 1) stop inMethod) s := by
  rw [statements, Parser.statements]
  refine .call (.gets ?_)
  split
  · exact .pure _
  · refine .onward (ih.statement inMethod s) fun _ t => ?_
    exact .bind (ih.statements stop inMethod t) (by decide) fun _ _ => .pure _

theorem suite_pays (ih : PaysStatements fuel) (inMethod : Bool) (s : ParserState) :
    Pays 1 1 (suite (fuel + 1) inMethod) (Parser.suite (fuel + 1) inMethod) s := by
  rw [suite, Parser.suite]
  refine .call (.block .openBlock fun _ t =>
    .bind (ih.statements _ inMethod t) (by decide) fun _ _ => ?_)
  exact .bind .closeBlock (Nat.zero_le _) fun _ _ => .pure _

theorem conditional_pays (ih : PaysStatements fuel) (inMethod : Bool) (s : ParserState)
    (htoken : s.cursor.token = .keyword .ifKw) :
    Pays 1 1 (conditional (fuel + 1) inMethod)
      (Parser.conditional (fuel + 1) inMethod) s := by
  rw [conditional, Parser.conditional]
  refine .call (.onward (.advance htoken (by decide)) fun _ t => ?_)
  refine .bind ((paysExpressions fuel).expression _ t) (by decide) fun _ _ =>
    .onward (.takeChar _) fun _ u => ?_
  refine .onward ((ih.suite inMethod u).weaken (by decide) (Nat.le_refl 1)) fun _ v =>
    .gets ?_
  split
  · next helse =>
    refine .onward (.advance (beq_iff_eq.mp helse) (by decide)) fun _ _ =>
      .onward (.takeChar _) fun _ w => ?_
    exact .onward ((ih.suite inMethod w).weaken (by decide) (Nat.le_refl 1)) fun _ _ =>
      .pure _
  · exact .pure _

theorem declaration_pays (ih : PaysStatements fuel) (s : ParserState)
    (htoken : s.cursor.token = .keyword .classKw) :
    Pays 1 1 (declaration (fuel + 1)) (Parser.declaration (fuel + 1)) s := by
  rw [declaration, Parser.declaration]
  refine .call (.onward (.advance htoken (by decide)) fun _ _ => ?_)
  refine .onward .takeId fun className _ =>
    .bind_right (.call (.parent (c := 0))) (by decide) fun parent _ => ?_
  refine .onward (.takeChar _) fun _ _ =>
    .block .openBlock fun _ t => .bind (ih.methods t) (by decide) fun found _ => ?_
  exact .bind .closeBlock (Nat.zero_le _) fun _ _ =>
    .bind (.declare _) (Nat.zero_le _) fun _ _ => .pure _

theorem methods_pays (ih : PaysStatements fuel) (s : ParserState) :
    Pays 0 4 (methods (fuel + 1)) (Parser.methods (fuel + 1)) s := by
  rw [methods, Parser.methods]
  refine .call (.onward (ih.method s) fun _ t => .gets ?_)
  split
  · exact .pure _
  · exact .bind (ih.methods t) (by decide) fun _ _ => .pure _

theorem method_pays (ih : PaysStatements fuel) (s : ParserState) :
    Pays 1 3 (method (fuel + 1)) (Parser.method (fuel + 1)) s := by
  rw [method, Parser.method]
  refine .call (.bind (methodHeader_pays fuel s) (by decide) fun _ t => ?_)
  exact .bind ((ih.suite true t).weaken (Nat.le_refl 1) (Nat.zero_le 1)) (Nat.le_refl 1)
    fun _ _ => .pure _

theorem paysStatements (fuel : Nat) : PaysStatements fuel := by
  induction fuel with
  | zero => constructor <;> (intros; exact .starve)
  | succ fuel ih =>
    exact {
      statement := statement_pays ih
      statements := statements_pays ih
      suite := suite_pays ih
      conditional := conditional_pays ih
      declaration := declaration_pays ih
      methods := methods_pays ih
      method := method_pays ih }

theorem program_pays (fuel : Nat) (s : ParserState) :
    Pays 0 23 (program fuel) (Program.parser fuel) s :=
  .call (.bind ((paysStatements fuel).statements _ false s) (Nat.le_refl 22) fun _ _ =>
    .gets (.pure _))

/-! ## Productions and loops -/

/-- What a production comes to at a place, whatever fuel it is given. With enough of it
the production ends; when it succeeds it has passed at least `taken` tokens, and the end
of the input is still ahead; and the tokens that are left bound the number of calls. -/
structure GoesOn (taken : Nat) {α : Type} (x : Nat → Counted α) (p : Nat → Parser α)
    (s : ParserState) : Prop where
  parser_eq : ∀ fuel, (x fuel).parser s = p fuel s
  ends : ∀ fuel, Program.parserFuel s.cursor.ahead.length ≤ fuel → p fuel s ≠ .starved
  passes : ∀ {fuel a t}, p fuel s = .done (a, t) →
    ∃ ls, taken ≤ ls.length ∧ s.cursor.Passes ls t.cursor ∧ t.cursor.Closed
  calls_le : ∀ fuel, (x fuel).calls s ≤ 24 * (s.cursor.left + 1)

/-- Productions and loops at a place. A production for a statement, a method, an
expression or a suite that succeeds has moved the cursor. -/
structure AllGoOn (s : ParserState) : Prop where
  statement : ∀ inMethod, GoesOn 1 (statement · inMethod) (Parser.statement · inMethod) s
  method : GoesOn 1 method Parser.method s
  expression : ∀ level, GoesOn 1 (expression · level) (Parser.expression · level) s
  suite : ∀ inMethod, GoesOn 1 (suite · inMethod) (Parser.suite · inMethod) s
  statements : ∀ stop inMethod,
    GoesOn 0 (statements · stop inMethod) (Parser.statements · stop inMethod) s
  methods : GoesOn 0 methods Parser.methods s
  parameters : GoesOn 0 parameters Parser.parameters s
  expressions : GoesOn 1 expressions Parser.expressions s
  chain : ∀ level left, GoesOn 0 (chain · level left) (Parser.chain · level left) s
  calling : ∀ object, GoesOn 0 (calling · object) (Parser.calls · object) s
  segments : GoesOn 0 segments Parser.segments s

variable {α : Type} {m c : Nat} {s : ParserState}

theorem GoesOn.of_pays {x : Nat → Counted α} {p : Nat → Parser α} {inline : Bool}
    {cost n : Nat} (hs : s.cursor.Closed) (hlinked : Linked s.cursor.stream)
    (hfree : c ≤ 24) (hpays : ∀ fuel, Pays m c (x fuel) (p fuel) s) (hcost : cost ≤ 32)
    (hruns : ∀ fuel, Enough fuel cost s.cursor → Runs inline n (p fuel) s) :
    GoesOn m x p s where
  parser_eq fuel := (hpays fuel).parser_eq
  ends := by
    intro fuel hfuel
    rw [Program.parserFuel] at hfuel
    exact (hruns fuel ⟨hlinked, by omega⟩).fed
  passes := by
    intro fuel a t hdone
    obtain ⟨ls, hpasses, htaken, -⟩ := (hpays fuel).done hs hdone
    exact ⟨ls, htaken, hpasses, hpasses.closed hs⟩
  calls_le := by
    intro fuel
    have hcalls := (hpays fuel).calls_le hs
    omega

theorem allGoOn (hs : s.cursor.Closed) (hlinked : Linked s.cursor.stream) :
    AllGoOn s where
  statement inMethod := .of_pays hs hlinked (by decide) (fun fuel =>
    (paysStatements fuel).statement inMethod s) (by decide) fun fuel h =>
      (Runs.statementsOfFuel fuel).statement h
  method := .of_pays hs hlinked (by decide) (fun fuel => (paysStatements fuel).method s)
    (by decide) fun fuel h => (Runs.statementsOfFuel fuel).method h
  expression level := .of_pays hs hlinked (by cases level <;> decide) (fun fuel =>
    (paysExpressions fuel).expression level s) (by cases level <;> decide) fun fuel h =>
      (Runs.ofFuel fuel).expression h
  suite inMethod :=
    .of_pays hs hlinked (by decide) (fun fuel => (paysStatements fuel).suite inMethod s)
      (by decide) fun fuel h => (Runs.statementsOfFuel fuel).suite h
  statements stop inMethod := .of_pays hs hlinked (by decide) (fun fuel =>
    (paysStatements fuel).statements stop inMethod s) (by decide) fun fuel h =>
      (Runs.statementsOfFuel fuel).statements h
  methods := .of_pays hs hlinked (by decide) (fun fuel => (paysStatements fuel).methods s)
    (by decide) fun fuel h => (Runs.statementsOfFuel fuel).methods h
  parameters := .of_pays hs hlinked (by decide) (fun fuel => parameters_pays fuel s)
    (by decide) fun fuel h => .parameters h
  expressions :=
    .of_pays hs hlinked (by decide) (fun fuel => (paysExpressions fuel).expressions s)
      (by decide) fun fuel h => (Runs.ofFuel fuel).expressions h
  chain level left := .of_pays hs hlinked (by decide) (fun fuel =>
    (paysExpressions fuel).chain level left s) (by decide) fun fuel h =>
      (Runs.ofFuel fuel).chain h
  calling object :=
    .of_pays hs hlinked (by decide) (fun fuel => (paysExpressions fuel).calling object s)
      (by decide) fun fuel h => (Runs.ofFuel fuel).calls h
  segments := .of_pays hs hlinked (by decide) (fun fuel => segments_pays fuel s)
    (by decide) fun fuel h => .segments h

end Counted

namespace Cursor

/-- The stream behind a cursor that has passed some tokens is as it comes from lines if
the whole of it is. -/
theorem Passes.linked {c c' : Cursor} {ls : List Lexeme} (h : c.Passes ls c')
    (hc : Linked c.stream) : Linked c'.stream := by
  rw [h.stream] at hc
  clear h
  induction ls with
  | nil => exact hc
  | cons l ls ih =>
    rw [List.map_cons, List.cons_append] at hc
    generalize hrest : ls.map Reading.token ++ c'.stream = rest at hc ih
    cases hc with
    | eof => cases ls <;> cases hrest
    | inside _ _ hlinked => exact ih hlinked
    | newline _ hlinked => exact ih hlinked

end Cursor

namespace Program

/-- Parsing moves on and ends. A source is read as a program or found to be none. On the
way the calls of productions, turns of loops among them, are bounded by the number of
tokens, and no more fuel makes a difference. Wherever the cursor can be, each production
and each loop ends. A success of one for statements, methods, expressions or suites has
passed a token, and none passes the end of the input. -/
theorem parsing_moves_on_and_ends (source : Source) :
    ((∃ program, parse source = .done program) ∨ ∃ e, parse source = .failed e) ∧
      ∀ cursor, Cursor.ofSource source = .ok cursor →
        (∀ fuel, (Counted.program fuel).parser = parser fuel ∧
          (Counted.program fuel).calls ⟨cursor, ∅⟩ ≤
            24 * ((Reading.leading source.readings).1.length + 1) ∧
          (parserFuel cursor.ahead.length ≤ fuel →
            parser fuel ⟨cursor, ∅⟩ =
              parser (parserFuel cursor.ahead.length) ⟨cursor, ∅⟩)) ∧
        ∀ ls s, cursor.Passes ls s.cursor → Counted.AllGoOn s := by
  refine ⟨?_, fun cursor hcursor => ?_⟩
  · cases hparse : parse source with
    | done program => exact .inl ⟨program, rfl⟩
    | failed e => exact .inr ⟨e, rfl⟩
    | starved => exact absurd hparse (parse_ne_starved source)
  · obtain ⟨hpassed, hwhole, hat⟩ := ParserState.at_ofSource hcursor ∅
    have hlinked := linked_ofSource hcursor
    refine ⟨fun fuel => ⟨funext fun s => (Counted.program_pays fuel s).parser_eq, ?_,
      parser_of_le hlinked⟩, ?_⟩
    · have hcalls := (Counted.program_pays fuel ⟨cursor, ∅⟩).calls_le hat.closed
      rw [Cursor.whole, hpassed] at hwhole
      rw [Cursor.left, show cursor.stream = source.readings from hwhole] at hcalls
      omega
    · exact fun ls s hpasses =>
        Counted.allGoOn (hpasses.closed hat.closed) (hpasses.linked hlinked)

/-- A class, and a line that makes an instance of it. -/
def instanceOfA : Source :=
  .ofString "class A:\n  def f(self):\n    return self\nx = A()\n"

/-- The parser in that source, that many tokens on and before the token, once the class
is declared. -/
def instanceOfAFrom (count : Nat) (current : Lexeme) : ParserState where
  cursor := ⟨((Reading.leading instanceOfA.readings).1.take count).reverse, current,
    instanceOfA.readings.drop (count + 1)⟩
  classes := ⟨#[⟨"A", none, [⟨"f", [], .body (.block [.ret (.path ["self"])])⟩]⟩]⟩

/-- Sixty-five calls for twenty-five tokens. The statement on the last line, which is
eighteen tokens on, passes all tokens but the end of the input. -/
theorem parsing_moves_on_and_ends_instance :
    (∃ program, parse instanceOfA = .done program) ∧
      (∀ fuel, (Counted.program fuel).calls
        ⟨(instanceOfAFrom 0 ⟨.keyword .classKw, 1⟩).cursor, ∅⟩ ≤ 624) ∧
      (Counted.program 416).calls
        ⟨(instanceOfAFrom 0 ⟨.keyword .classKw, 1⟩).cursor, ∅⟩ = 65 ∧
      Parser.statement 128 false (instanceOfAFrom 18 ⟨.id "x", 4⟩) =
        .done (.assign "x" (.create 0 []), instanceOfAFrom 24 ⟨Token.eof, 5⟩) ∧
      ∃ ls, 1 ≤ ls.length ∧
        (instanceOfAFrom 18 ⟨.id "x", 4⟩).cursor.Passes ls
          (instanceOfAFrom 24 ⟨Token.eof, 5⟩).cursor ∧
        (instanceOfAFrom 24 ⟨Token.eof, 5⟩).cursor.Closed := by
  have hstart : Cursor.ofSource instanceOfA =
      .ok (instanceOfAFrom 0 ⟨.keyword .classKw, 1⟩).cursor := by
    have hreadings : instanceOfA.readings =
        .token ⟨.keyword .classKw, 1⟩ :: instanceOfA.readings.drop 1 := by
      decide +kernel
    rw [Cursor.ofSource, hreadings]
    rfl
  have hpasses : (instanceOfAFrom 0 ⟨.keyword .classKw, 1⟩).cursor.Passes
      ((Reading.leading instanceOfA.readings).1.take 18)
        (instanceOfAFrom 18 ⟨.id "x", 4⟩).cursor :=
    ⟨by decide +kernel, by decide +kernel, by decide +kernel⟩
  have hstatement : Parser.statement 128 false (instanceOfAFrom 18 ⟨.id "x", 4⟩) =
      .done (.assign "x" (.create 0 []), instanceOfAFrom 24 ⟨Token.eof, 5⟩) := by
    decide +kernel
  have hlength : (Reading.leading instanceOfA.readings).1.length = 25 := by decide +kernel
  obtain ⟨hreturns, hruns⟩ := parsing_moves_on_and_ends instanceOfA
  obtain ⟨hprogram, hplaces⟩ := hruns _ hstart
  refine ⟨?_, fun fuel => ?_, by decide +kernel, hstatement,
    ((hplaces _ _ hpasses).statement false).passes hstatement⟩
  · rcases hreturns with hdone | ⟨e, hfailed⟩
    · exact hdone
    · have hnot : (parse instanceOfA).map (fun _ => ()) = .done () := by decide +kernel
      rw [hfailed] at hnot
      cases hnot
  · have hcalls := (hprogram fuel).2.1
    rwa [hlength] at hcalls

end Program

end Mint
