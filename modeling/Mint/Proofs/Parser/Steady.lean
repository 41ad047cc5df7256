import Mint.Proofs.Grammar.Tokens
import Mint.Parser.Statement

/-!
# Parsing inside a line

Whether it succeeds or fails, a production that stays inside a line passes no mark for
depth. That is said here as a rule: what every step over another token keeps, all of
these productions keep (`Steady`). Unlike the statements about the tokens that a success
has taken, the rule covers runs that fail halfway.
-/

namespace Mint

/-- Whether the token is neither a mark for depth nor the end of the input. -/
def Token.isLevel : Token → Bool
  | .layout mark => mark == .newline
  | _ => true

theorem Token.isLevel_of_isLayout {token : Token} (h : token.isLayout = false) :
    token.isLevel = true := by
  cases token with
  | layout mark => cases h
  | _ => rfl

/-- A run from `s`, if that is in `I`, ends in `I` when it is done and in `F` when it
fails. -/
structure Run.Keeps {ε σ α : Type} (I F : σ → Prop) (x : Run ε σ α) (s : σ) : Prop where
  done : ∀ {a t}, I s → x s = .done (a, t) → I t
  failed : ∀ {e t}, I s → x s = .failed (e, t) → F t

namespace Run.Keeps

variable {ε σ α β : Type} {I F : σ → Prop} {s : σ}

theorem pure (a : α) : Keeps I F (Pure.pure a : Run ε σ α) s where
  done := by
    intro _ t hs heq
    cases heq
    exact hs
  failed := by
    intro _ t _ heq
    cases heq

theorem starve : Keeps I F (Run.starve : Run ε σ α) s where
  done := by
    intro _ t _ heq
    cases heq
  failed := by
    intro _ t _ heq
    cases heq

/-- The second run may count on what the first has come to. -/
theorem bind_of_done {x : Run ε σ α} {f : α → Run ε σ β} (hx : Keeps I F x s)
    (hf : ∀ a t, x s = .done (a, t) → Keeps I F (f a) t) : Keeps I F (x >>= f) s where
  done := by
    intro b u hs heq
    obtain ⟨a, t, hxs, hfa⟩ := Run.bind_eq_done_iff.mp heq
    exact (hf a t hxs).done (hx.done hs hxs) hfa
  failed := by
    intro e u hs heq
    cases hxs : x s with
    | starved =>
      rw [Run.bind_starved hxs] at heq
      cases heq
    | failed r =>
      rw [Run.bind_failed hxs] at heq
      cases heq
      exact hx.failed hs hxs
    | done r =>
      rw [Run.bind_done hxs] at heq
      exact (hf r.1 r.2 hxs).failed (hx.done hs hxs) heq

theorem bind {x : Run ε σ α} {f : α → Run ε σ β} (hx : Keeps I F x s)
    (hf : ∀ a t, Keeps I F (f a) t) :
    Keeps I F (x >>= f) s := hx.bind_of_done fun a t _ => hf a t

theorem of_eq {x y : Run ε σ α} (heq : x s = y s) (h : Keeps I F y s) :
    Keeps I F x s where
  done := fun hs hdone => h.done hs (heq.symm.trans hdone)
  failed := fun hs hfailed => h.failed hs (heq.symm.trans hfailed)

/-- Looking at the state is no step. -/
theorem gets {f : σ → α} {k : α → Run ε σ β} (h : Keeps I F (k (f s)) s) :
    Keeps I F (Run.gets f >>= k) s :=
  ⟨h.done, h.failed⟩

end Run.Keeps

open Run (Keeps)

/-- What holds while parsing goes on is kept by every step that changes no level, and
leaves `F` behind when parsing fails. A failed step may have lost what was ahead. -/
structure Steady (I F : ParserState → Prop) : Prop where
  step : ∀ {s t}, I s → s.cursor.token.isLevel = true → s.Steps t → I t
  failed : ∀ {s t}, I s → t.cursor.passed = s.cursor.passed → F t

namespace Steady

open Mint.Parser

variable {I F : ParserState → Prop} {α : Type} {s : ParserState}

theorem fail (h : Steady I F) (e : ParseError) : Keeps I F (Run.fail e : Parser α) s where
  done := by
    intro _ t _ heq
    cases heq
  failed := by
    intro _ t hs heq
    cases heq
    exact h.failed hs rfl

theorem unexpected (h : Steady I F) (expected : Expectation) :
    Keeps I F (unexpected expected : Parser α) s :=
  .gets (.gets (h.fail _))

theorem advance (h : Steady I F) (htoken : s.cursor.token.isLevel = true) :
    Keeps I F advance s where
  done := by
    intro _ t hs heq
    rcases steps_or_eq_of_advance heq with hstep | ⟨-, rfl⟩
    · exact h.step hs htoken hstep
    · exact hs
  failed := fun hs heq => h.failed hs (passed_of_advance heq)

theorem check (h : Steady I F) (passes : Cursor → Except LexError α) :
    Keeps I F (check passes) s where
  done := by
    intro _ t hs heq
    obtain ⟨-, rfl⟩ := ok_of_check heq
    exact hs
  failed := by
    intro _ t hs heq
    rw [Parser.check] at heq
    cases hpasses : passes s.cursor with
    | ok a =>
      rw [hpasses] at heq
      cases heq
    | error e =>
      rw [hpasses] at heq
      cases heq
      exact h.failed hs rfl

theorem take (h : Steady I F) {token : Token} (htoken : token.isLevel = true) :
    Keeps I F (take token) s := by
  refine (h.check _).bind_of_done fun _ t hcheck => h.advance ?_
  obtain ⟨hok, rfl⟩ := ok_of_check hcheck
  rw [expectValue_ok_iff.mp hok]
  exact htoken

theorem takeChar (h : Steady I F) (c : Char) : Keeps I F (takeChar c) s := h.take rfl

theorem takeId (h : Steady I F) : Keeps I F takeId s := by
  refine (h.check _).bind_of_done fun _ t hcheck =>
    .bind (h.advance ?_) fun _ _ => .pure _
  obtain ⟨hok, rfl⟩ := ok_of_check hcheck
  rw [expectId_ok_iff.mp hok]
  rfl

/-- A step over a character that is there. -/
theorem advanceChar (h : Steady I F) {c : Char} (hc : s.cursor.token.isChar c = true) :
    Keeps I F Parser.advance s := by
  refine h.advance ?_
  rw [isChar_iff.mp hc]
  rfl

theorem segments (h : Steady I F) (fuel : Nat) : Keeps I F (segments fuel) s := by
  induction fuel generalizing s with
  | zero => exact .starve
  | succ fuel ih =>
    refine .gets ?_
    split
    · next hdot =>
      exact .bind (h.advanceChar hdot) fun _ _ =>
        .bind h.takeId fun _ _ => .bind ih fun _ _ => .pure _
    · exact .pure _

/-- All productions for expressions keep `I` with the given fuel. -/
structure Expressions (I F : ParserState → Prop) (fuel : Nat) : Prop where
  expression : ∀ level s, Keeps I F (expression fuel level) s
  chain : ∀ level left s, Keeps I F (chain fuel level left) s
  calls : ∀ object s, Keeps I F (calls fuel object) s
  atom : ∀ s, Keeps I F (atom fuel) s
  name : ∀ s, Keeps I F (name fuel) s
  arguments : ∀ s, Keeps I F (arguments fuel) s
  expressions : ∀ s, Keeps I F (expressions fuel) s

variable {fuel : Nat}

theorem expression_succ (h : Steady I F) (ih : Expressions I F fuel) (level : Level)
    (s : ParserState) :
    Keeps I F (Parser.expression (fuel + 1) level) s := by
  cases level with
  | disjunction | conjunction | sum | product =>
    exact .bind (ih.expression _ s) fun left t => ih.chain _ left t
  | negation =>
    rw [Parser.expression]
    refine .gets ?_
    split
    · next hnot =>
      refine .bind (h.advance ?_) fun _ t => .bind (ih.expression _ t) fun _ _ => .pure _
      rw [beq_iff_eq.mp hnot]
      rfl
    · exact ih.expression _ s
  | comparison =>
    rw [Parser.expression]
    refine .bind (ih.expression _ s) fun left t => .gets ?_
    cases hop : comparator? t.cursor.token with
    | none => exact .pure _
    | some op =>
      have hlevel := Token.isLevel_of_isLayout (Grammar.isLayout_of_comparator? hop)
      exact .bind (h.advance hlevel) fun _ u =>
        .bind (ih.expression _ u) fun _ _ => .pure _
  | sign =>
    rw [Parser.expression]
    refine .gets ?_
    split
    · next hminus =>
        exact .bind (h.advanceChar hminus) fun _ t =>
          .bind (ih.expression _ t) fun _ _ => .pure _
    · exact .bind (ih.atom s) fun object t => ih.calls object t

theorem chain_succ (h : Steady I F) (ih : Expressions I F fuel) (level : Level)
    (left : Node) (s : ParserState) :
    Keeps I F (Parser.chain (fuel + 1) level left) s := by
  rw [Parser.chain]
  refine .gets ?_
  cases hop : level.join? s.cursor.token with
  | none => exact .pure _
  | some join =>
    have hlevel := Token.isLevel_of_isLayout (Grammar.isLayout_of_join? hop)
    exact .bind (h.advance hlevel) fun _ t =>
      .bind (ih.expression _ t) fun right u => ih.chain level _ u

theorem calls_succ (h : Steady I F) (ih : Expressions I F fuel) (object : Node)
    (s : ParserState) :
    Keeps I F (Parser.calls (fuel + 1) object) s := by
  rw [Parser.calls]
  refine .gets ?_
  split
  · next hdot =>
    refine .bind (h.advanceChar hdot) fun _ t => .bind h.takeId fun method u => .gets ?_
    split
    · exact .bind (ih.arguments u) fun args v => ih.calls _ v
    · exact h.unexpected _
  · exact .pure _

theorem atom_succ (h : Steady I F) (ih : Expressions I F fuel) (s : ParserState) :
    Keeps I F (Parser.atom (fuel + 1)) s := by
  rw [Parser.atom]
  refine .gets ?_
  cases hconst : constant? s.cursor.token with
  | some node =>
    have hlevel := Token.isLevel_of_isLayout (Grammar.isLayout_of_constant? hconst)
    exact .bind (h.advance hlevel) fun _ _ => .pure _
  | none =>
    cases htoken : s.cursor.token with
    | id first => exact ih.name s
    | char c =>
      split
      · next heq => cases heq
      · next hparen =>
        refine .bind (h.advance (by rw [htoken]; rfl)) fun _ t =>
          .bind (ih.expression _ t) fun _ _ => ?_
        exact .bind (h.takeChar _) fun _ _ => .pure _
      · exact ih.name s
      · exact h.unexpected _
    | _ => exact h.unexpected _

theorem name_succ (h : Steady I F) (ih : Expressions I F fuel) (s : ParserState) :
    Keeps I F (Parser.name (fuel + 1)) s := by
  rw [Parser.name]
  refine .gets (.bind h.takeId fun first t =>
    .bind (h.segments fuel) fun more u => .gets ?_)
  split
  · split
    · exact .bind (ih.arguments u) fun _ _ => .pure _
    · split
      · refine .bind (h.takeChar _) fun _ v =>
          .bind (ih.expression _ v) fun operand _ => ?_
        exact .bind (h.takeChar _) fun _ _ => .pure _
      · refine .gets ?_
        cases u.classes.latest? first with
        | some cls => exact .bind (ih.arguments u) fun _ _ => .pure _
        | none => exact h.fail _
  · exact .pure _

theorem arguments_succ (h : Steady I F) (ih : Expressions I F fuel) (s : ParserState) :
    Keeps I F (Parser.arguments (fuel + 1)) s := by
  rw [Parser.arguments]
  refine .bind (h.takeChar _) fun _ t => .gets ?_
  split
  · exact .bind (.pure _) fun _ _ => .bind (h.takeChar _) fun _ _ => .pure _
  · exact .bind (ih.expressions t) fun _ _ => .bind (h.takeChar _) fun _ _ => .pure _

theorem expressions_succ (h : Steady I F) (ih : Expressions I F fuel) (s : ParserState) :
    Keeps I F (Parser.expressions (fuel + 1)) s := by
  rw [Parser.expressions]
  refine .bind (ih.expression _ s) fun first t => .gets ?_
  split
  · next hcomma =>
      exact .bind (h.advanceChar hcomma) fun _ u =>
        .bind (ih.expressions u) fun _ _ => .pure _
  · exact .pure _

theorem ofFuel (h : Steady I F) (fuel : Nat) : Expressions I F fuel := by
  induction fuel with
  | zero => constructor <;> (intros; exact .starve)
  | succ fuel ih =>
    exact {
      expression := h.expression_succ ih
      chain := h.chain_succ ih
      calls := h.calls_succ ih
      atom := h.atom_succ ih
      name := h.name_succ ih
      arguments := h.arguments_succ ih
      expressions := h.expressions_succ ih }

/-! ## Lines -/

theorem assignment (h : Steady I F) (start : Nat) (target : Node) {value : Parser Node}
    (hequals : s.cursor.token.isChar '=' = true) (hvalue : ∀ t, Keeps I F value t) :
    Keeps I F (assignment start target value) s := by
  cases target with
  | path segments =>
    rw [Parser.assignment]
    cases segments.getLast? with
    | none => exact h.fail _
    | some last =>
      refine .bind (h.advanceChar hequals) fun _ t => .bind (hvalue t) fun _ _ => ?_
      cases segments.dropLast with
      | nil => exact .pure _
      | cons object more => exact .pure _
  | _ => exact h.fail _

theorem simple (h : Steady I F) (fuel : Nat) (inMethod : Bool) :
    Keeps I F (simple fuel inMethod) s := by
  have all := h.ofFuel fuel
  rw [Parser.simple]
  refine .gets ?_
  split
  · next hreturn =>
    split
    · refine .bind (h.advance (by rw [hreturn]; rfl)) fun _ t => .gets ?_
      split
      · exact .pure _
      · exact .bind (all.expression _ t) fun _ _ => .pure _
    · exact .gets (h.fail _)
  · next hprint =>
    refine .bind (h.advance (by rw [hprint]; rfl)) fun _ t => .gets ?_
    split
    · exact .pure _
    · exact .bind (all.expressions t) fun _ _ => .pure _
  · refine .gets (.bind (all.expression _ s) fun target t => .gets ?_)
    split
    · next hequals => exact h.assignment _ _ hequals fun u => all.expression _ u
    · exact .pure _

theorem parent (h : Steady I F) : Keeps I F parent s := by
  rw [Parser.parent]
  refine .gets ?_
  split
  · next hparen =>
    refine .bind (h.advanceChar hparen) fun _ t =>
      .gets (.bind h.takeId fun name u => .gets ?_)
    cases u.classes.latest? name with
    | none => exact h.fail _
    | some cls => exact .bind (h.takeChar _) fun _ _ => .pure _
  · exact .pure _

theorem parameters (h : Steady I F) (fuel : Nat) : Keeps I F (parameters fuel) s := by
  induction fuel generalizing s with
  | zero => exact .starve
  | succ fuel ih =>
    refine .gets ?_
    split
    · next hcomma =>
      exact .bind (h.advanceChar hcomma) fun _ _ =>
        .bind h.takeId fun _ _ => .bind ih fun _ _ => .pure _
    · exact .pure _

theorem methodHeader (h : Steady I F) (fuel : Nat) : Keeps I F (methodHeader fuel) s := by
  rw [Parser.methodHeader]
  refine .bind (h.take rfl) fun _ _ =>
    .bind h.takeId fun name _ => .bind (h.takeChar _) fun _ t => .gets (.gets ?_)
  split
  · next hself =>
    refine .bind (h.advance (by rw [beq_iff_eq.mp hself]; rfl)) fun _ _ =>
      .bind (h.parameters fuel) fun _ _ => ?_
    exact .bind (h.takeChar _) fun _ _ => .bind (h.takeChar _) fun _ _ => .pure _
  · exact h.fail _

end Steady

end Mint
