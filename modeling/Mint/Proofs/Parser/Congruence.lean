import Mint.Parser.Statement
import Mint.Eval.Fuel

/-!
# Relations that all productions keep

A relation between parsers that the primitive moves keep is kept by every production,
whatever fuel the two sides have, as long as the first has no more
(`Parser.Congruence.statements`). What has to be checked is listed in
`Parser.Congruence`. Productions look at no more of their state than the current token,
its line and the table of classes, and the list says so. With the line they do nothing
but put it into errors, and so the second side may number its lines in another way.

The first use is fuel: more of it changes nothing about a run that was not starved
(`Parser.refines_statements`).
-/

namespace Mint

/-! ## Line numbers -/

variable {number : Nat → Nat}

/-- The token with the number of its line changed. -/
def Lexeme.renumber (number : Nat → Nat) (lexeme : Lexeme) : Lexeme :=
  { lexeme with line := number lexeme.line }

/-- The error with the number of its line changed. -/
def LexError.renumber (number : Nat → Nat) (e : LexError) : LexError :=
  { e with line := number e.line }

/-- The error with the number of its line changed. -/
def ParseError.renumber (number : Nat → Nat) : ParseError → ParseError
  | lexical e => lexical (e.renumber number)
  | grammatical line fault => grammatical (number line) fault

theorem ParseError.renumber_id (e : ParseError) : e.renumber id = e := by cases e <;> rfl

theorem LexError.mapError_renumber_id {α : Type} (x : Except LexError α) :
    x.mapError (renumber id) = x := by
  cases x <;> rfl

namespace Cursor

variable {c c' : Cursor} (h : c'.current = c.current.renumber number)

include h

theorem token_renumber : c'.token = c.token := by
  rw [token, h]
  rfl

theorem line_renumber : c'.line = number c.line := by
  rw [line, h]
  rfl

theorem expect_renumber (kind : Token.Kind) :
    c'.expect kind = (c.expect kind).mapError (LexError.renumber number) := by
  rw [expect, expect, wrongKind, wrongKind, token_renumber h, line_renumber h]
  split <;> rfl

theorem expectValue_renumber (expected : Token) :
    c'.expectValue expected =
      (c.expectValue expected).mapError (LexError.renumber number) := by
  rw [expectValue, expectValue, expect_renumber h, line_renumber h]
  cases c.expect expected.kind with
  | error e => rfl
  | ok found =>
    show (if found = expected then Except.ok ()
      else .error ⟨number c.line, .unexpectedValue expected found⟩) =
      (if found = expected then Except.ok ()
        else .error ⟨c.line, _⟩).mapError (LexError.renumber number)
    split <;> rfl

theorem expectId_renumber :
    c'.expectId = c.expectId.mapError (LexError.renumber number) := by
  rw [expectId, expectId, wrongKind, wrongKind, token_renumber h, line_renumber h]
  cases c.token <;> rfl

end Cursor

namespace Parser

/-- A relation between parsers that the primitive moves keep. A line with a number `n`
on the first side has the number `number n` on the second. -/
structure Congruence (number : Nat → Nat) (R : ∀ {α : Type}, Parser α → Parser α → Prop) :
    Prop where
  pure : ∀ {α : Type} (a : α), R (Pure.pure a) (Pure.pure a)
  bind : ∀ {α β : Type} {x y : Parser α} {f g : α → Parser β},
    R x y → (∀ a, R (f a) (g a)) → R (x >>= f) (y >>= g)
  starve : ∀ {α : Type} (y : Parser α), R Run.starve y
  fail : ∀ {α : Type} (e : ParseError),
    R (Run.fail e : Parser α) (Run.fail (e.renumber number))
  /-- Looking at the current token. -/
  look : ∀ {α : Type} (f : Token → α),
    R (Run.gets fun s => f s.cursor.token) (Run.gets fun s => f s.cursor.token)
  /-- Going on with the line of the current token. -/
  line : ∀ {α : Type} {f g : Nat → Parser α},
    (∀ n, R (f n) (g (number n))) → R (line >>= f) (line >>= g)
  latest? : ∀ name, R (latest? name) (latest? name)
  advance : R advance advance
  /-- Checking the current token. -/
  check : ∀ {α : Type} {passes : Cursor → Except LexError α},
    (∀ {c c' : Cursor}, c'.current = c.current.renumber number →
      passes c' = (passes c).mapError (LexError.renumber number)) →
      R (check passes) (check passes)
  declare : ∀ cls, R (declare cls) (declare cls)

namespace Congruence

variable {R : ∀ {α : Type}, Parser α → Parser α → Prop} {fuel more : Nat}

/-! ## Moves -/

theorem peek (h : Congruence number R) : R peek peek := h.look id

theorem atToken (h : Congruence number R) (token : Token) :
    R (atToken token) (atToken token) :=
  h.look fun found => found == token

theorem atChar (h : Congruence number R) (c : Char) : R (atChar c) (atChar c) :=
  h.look fun found => found.isChar c

theorem take (h : Congruence number R) (token : Token) : R (take token) (take token) :=
  h.bind (h.check fun hcurrent => Cursor.expectValue_renumber hcurrent token) fun _ =>
    h.advance

theorem takeId (h : Congruence number R) : R takeId takeId :=
  h.bind (h.check Cursor.expectId_renumber) fun _ => h.bind h.advance fun _ => h.pure _

theorem unexpected (h : Congruence number R) {α : Type} (expected : Expectation) :
    R (unexpected expected : Parser α) (unexpected expected) :=
  h.line fun _ => h.bind h.peek fun _ => h.fail _

theorem openBlock (h : Congruence number R) : R openBlock openBlock :=
  h.bind (h.take _) fun _ =>
    h.bind (h.check fun hcurrent => Cursor.expect_renumber hcurrent _) fun _ => h.advance

theorem closeBlock (h : Congruence number R) : R closeBlock closeBlock := by
  refine h.bind (h.atToken _) fun found => ?_
  cases found with
  | true => exact h.advance
  | false => exact h.pure _

/-! ## Expressions -/

theorem segments (h : Congruence number R) (hfuel : fuel ≤ more) :
    R (segments fuel) (segments more) := by
  induction fuel generalizing more with
  | zero => exact h.starve _
  | succ fuel ih =>
    obtain ⟨more, rfl⟩ : ∃ n, more = n + 1 := ⟨more - 1, by omega⟩
    refine h.bind (h.atChar _) fun found => ?_
    cases found with
    | true =>
      exact h.bind h.advance fun _ => h.bind h.takeId fun _ =>
        h.bind (ih (Nat.le_of_succ_le_succ hfuel)) fun _ => h.pure _
    | false => exact h.pure _

/-- All productions for expressions are related with the given fuels. -/
structure Expressions (R : ∀ {α : Type}, Parser α → Parser α → Prop) (fuel more : Nat) :
    Prop where
  expression : ∀ level, R (expression fuel level) (expression more level)
  chain : ∀ level left, R (chain fuel level left) (chain more level left)
  calls : ∀ object, R (calls fuel object) (calls more object)
  atom : R (atom fuel) (atom more)
  name : R (name fuel) (name more)
  arguments : R (arguments fuel) (arguments more)
  expressions : R (expressions fuel) (expressions more)

theorem expression_succ (h : Congruence number R) (ih : Expressions R fuel more)
    (level : Level) :
    R (expression (fuel + 1) level) (expression (more + 1) level) := by
  cases level with
  | disjunction | conjunction | sum | product =>
    exact h.bind (ih.expression _) fun _ => ih.chain _ _
  | negation =>
    rw [expression, expression]
    refine h.bind (h.atToken _) fun found => ?_
    cases found with
    | true => exact h.bind h.advance fun _ => h.bind (ih.expression _) fun _ => h.pure _
    | false => exact ih.expression _
  | comparison =>
    rw [expression, expression]
    refine h.bind (ih.expression _) fun _ => h.bind h.peek fun token => ?_
    cases comparator? token with
    | none => exact h.pure _
    | some op =>
      exact h.bind h.advance fun _ => h.bind (ih.expression _) fun _ => h.pure _
  | sign =>
    rw [expression, expression]
    refine h.bind (h.atChar _) fun found => ?_
    cases found with
    | true => exact h.bind h.advance fun _ => h.bind (ih.expression _) fun _ => h.pure _
    | false => exact h.bind ih.atom fun _ => ih.calls _

theorem chain_succ (h : Congruence number R) (ih : Expressions R fuel more)
    (level : Level) (left : Node) :
    R (chain (fuel + 1) level left) (chain (more + 1) level left) := by
  rw [chain, chain]
  refine h.bind h.peek fun token => ?_
  cases level.join? token with
  | none => exact h.pure _
  | some join =>
    exact h.bind h.advance fun _ => h.bind (ih.expression _) fun _ => ih.chain _ _

theorem calls_succ (h : Congruence number R) (ih : Expressions R fuel more)
    (object : Node) :
    R (calls (fuel + 1) object) (calls (more + 1) object) := by
  rw [calls, calls]
  refine h.bind (h.atChar _) fun found => ?_
  cases found with
  | false => exact h.pure _
  | true =>
    refine h.bind h.advance fun _ =>
      h.bind h.takeId fun _ => h.bind (h.atChar _) fun found => ?_
    cases found with
    | true => exact h.bind ih.arguments fun _ => ih.calls _
    | false => exact h.unexpected _

theorem atom_succ (h : Congruence number R) (ih : Expressions R fuel more) :
    R (atom (fuel + 1)) (atom (more + 1)) := by
  rw [atom, atom]
  refine h.bind h.peek fun token => ?_
  split
  · exact h.bind h.advance fun _ => h.pure _
  · exact h.bind h.advance fun _ =>
      h.bind (ih.expression _) fun _ => h.bind (h.take _) fun _ => h.pure _
  · exact ih.name
  · exact h.unexpected _

theorem name_succ (h : Congruence number R) (ih : Expressions R fuel more)
    (hfuel : fuel ≤ more) :
    R (name (fuel + 1)) (name (more + 1)) := by
  rw [name, name]
  refine h.line fun start =>
    h.bind h.takeId fun first => h.bind (h.segments hfuel) fun later => ?_
  refine h.bind (h.atChar _) fun found => ?_
  cases found with
  | false => exact h.pure _
  | true =>
    rw [if_pos rfl, if_pos rfl]
    cases later.getLast? with
    | some method => exact h.bind ih.arguments fun _ => h.pure _
    | none =>
      dsimp only
      split
      · exact h.bind (h.take _) fun _ =>
          h.bind (ih.expression _) fun _ => h.bind (h.take _) fun _ => h.pure _
      · refine h.bind (h.latest? _) fun cls => ?_
        cases cls with
        | some cls => exact h.bind ih.arguments fun _ => h.pure _
        | none => exact h.fail _

theorem arguments_succ (h : Congruence number R) (ih : Expressions R fuel more) :
    R (arguments (fuel + 1)) (arguments (more + 1)) := by
  rw [arguments, arguments]
  refine h.bind (h.take _) fun _ => h.bind (h.atChar _) fun found => ?_
  cases found with
  | true => exact h.bind (h.pure _) fun _ => h.bind (h.take _) fun _ => h.pure _
  | false => exact h.bind ih.expressions fun _ => h.bind (h.take _) fun _ => h.pure _

theorem expressions_succ (h : Congruence number R) (ih : Expressions R fuel more) :
    R (expressions (fuel + 1)) (expressions (more + 1)) := by
  rw [expressions, expressions]
  refine h.bind (ih.expression _) fun _ => h.bind (h.atChar _) fun found => ?_
  cases found with
  | true => exact h.bind h.advance fun _ => h.bind ih.expressions fun _ => h.pure _
  | false => exact h.pure _

theorem ofFuel (h : Congruence number R) (hfuel : fuel ≤ more) :
    Expressions R fuel more := by
  induction fuel generalizing more with
  | zero => constructor <;> (intros; exact h.starve _)
  | succ fuel ih =>
    obtain ⟨more, rfl⟩ : ∃ n, more = n + 1 := ⟨more - 1, by omega⟩
    have hfuel := Nat.le_of_succ_le_succ hfuel
    exact {
      expression := h.expression_succ (ih hfuel)
      chain := h.chain_succ (ih hfuel)
      calls := h.calls_succ (ih hfuel)
      atom := h.atom_succ (ih hfuel)
      name := h.name_succ (ih hfuel) hfuel
      arguments := h.arguments_succ (ih hfuel)
      expressions := h.expressions_succ (ih hfuel) }

/-! ## Statements -/

theorem assignment (h : Congruence number R) (start : Nat) (target : Node)
    {value value' : Parser Node} (hvalue : R value value') :
    R (assignment start target value) (assignment (number start) target value') := by
  cases target with
  | path segments =>
    rw [Parser.assignment, Parser.assignment]
    cases segments.getLast? with
    | none => exact h.fail _
    | some last =>
      refine h.bind h.advance fun _ => h.bind hvalue fun _ => ?_
      cases segments.dropLast with
      | nil => exact h.pure _
      | cons object rest => exact h.pure _
  | _ => exact h.fail _

theorem simple (h : Congruence number R) (hfuel : fuel ≤ more) (inMethod : Bool) :
    R (simple fuel inMethod) (simple more inMethod) := by
  have all := h.ofFuel hfuel
  rw [Parser.simple, Parser.simple]
  refine h.bind h.peek fun token => ?_
  split
  · cases inMethod with
    | false => exact h.line fun _ => h.fail _
    | true =>
      refine h.bind h.advance fun _ => h.bind (h.atToken _) fun found => ?_
      cases found with
      | true => exact h.pure _
      | false => exact h.bind (all.expression _) fun _ => h.pure _
  · refine h.bind h.advance fun _ => h.bind (h.atToken _) fun found => ?_
    cases found with
    | true => exact h.pure _
    | false => exact h.bind all.expressions fun _ => h.pure _
  · refine h.line fun start =>
      h.bind (all.expression _) fun target => h.bind (h.atChar _) fun found => ?_
    cases found with
    | true => exact h.assignment start target (all.expression _)
    | false => exact h.pure _

theorem parent (h : Congruence number R) : R parent parent := by
  refine h.bind (h.atChar _) fun found => ?_
  cases found with
  | false => exact h.pure _
  | true =>
    refine h.bind h.advance fun _ =>
      h.line fun start => h.bind h.takeId fun _ => h.bind (h.latest? _) fun cls => ?_
    cases cls with
    | none => exact h.fail _
    | some cls => exact h.bind (h.take _) fun _ => h.pure _

theorem parameters (h : Congruence number R) (hfuel : fuel ≤ more) :
    R (parameters fuel) (parameters more) := by
  induction fuel generalizing more with
  | zero => exact h.starve _
  | succ fuel ih =>
    obtain ⟨more, rfl⟩ : ∃ n, more = n + 1 := ⟨more - 1, by omega⟩
    refine h.bind (h.atChar _) fun found => ?_
    cases found with
    | true =>
      exact h.bind h.advance fun _ => h.bind h.takeId fun _ =>
        h.bind (ih (Nat.le_of_succ_le_succ hfuel)) fun _ => h.pure _
    | false => exact h.pure _

theorem methodHeader (h : Congruence number R) (hfuel : fuel ≤ more) :
    R (methodHeader fuel) (methodHeader more) := by
  refine h.bind (h.take _) fun _ =>
    h.bind h.takeId fun _ => h.bind (h.take _) fun _ => h.line fun _ => ?_
  refine h.bind (h.atToken _) fun found => ?_
  cases found with
  | true =>
    exact h.bind h.advance fun _ =>
        h.bind (h.parameters hfuel) fun _ => h.bind (h.take _) fun _ =>
      h.bind (h.take _) fun _ => h.pure _
  | false => exact h.fail _

/-- All productions for statements are related with the given fuels. -/
structure Statements (R : ∀ {α : Type}, Parser α → Parser α → Prop) (fuel more : Nat) :
    Prop where
  statement : ∀ inMethod, R (statement fuel inMethod) (statement more inMethod)
  statements : ∀ stop inMethod,
    R (statements fuel stop inMethod) (statements more stop inMethod)
  suite : ∀ inMethod, R (suite fuel inMethod) (suite more inMethod)
  conditional : ∀ inMethod, R (conditional fuel inMethod) (conditional more inMethod)
  declaration : R (declaration fuel) (declaration more)
  methods : R (methods fuel) (methods more)
  method : R (method fuel) (method more)

theorem statement_succ (h : Congruence number R) (ih : Statements R fuel more)
    (hfuel : fuel ≤ more) (inMethod : Bool) :
    R (statement (fuel + 1) inMethod) (statement (more + 1) inMethod) := by
  rw [statement, statement]
  refine h.bind h.peek fun token => ?_
  split
  · exact ih.declaration
  · exact ih.conditional inMethod
  · exact h.bind (h.simple hfuel inMethod) fun _ => h.bind (h.take _) fun _ => h.pure _

theorem statements_succ (h : Congruence number R) (ih : Statements R fuel more)
    (stop : Token → Bool) (inMethod : Bool) :
    R (statements (fuel + 1) stop inMethod) (statements (more + 1) stop inMethod) := by
  rw [statements, statements]
  refine h.bind h.peek fun token => ?_
  split
  · exact h.pure _
  · exact h.bind (ih.statement inMethod) fun _ =>
      h.bind (ih.statements stop inMethod) fun _ => h.pure _

theorem suite_succ (h : Congruence number R) (ih : Statements R fuel more)
    (inMethod : Bool) :
    R (suite (fuel + 1) inMethod) (suite (more + 1) inMethod) := by
  rw [suite, suite]
  exact h.bind h.openBlock fun _ =>
    h.bind (ih.statements _ inMethod) fun _ => h.bind h.closeBlock fun _ => h.pure _

theorem conditional_succ (h : Congruence number R) (ih : Statements R fuel more)
    (hfuel : fuel ≤ more) (inMethod : Bool) :
    R (conditional (fuel + 1) inMethod) (conditional (more + 1) inMethod) := by
  rw [conditional, conditional]
  refine h.bind h.advance fun _ =>
    h.bind ((h.ofFuel hfuel).expression _) fun _ => h.bind (h.take _) fun _ => ?_
  refine h.bind (ih.suite inMethod) fun _ => h.bind (h.atToken _) fun found => ?_
  cases found with
  | true =>
    exact h.bind h.advance fun _ =>
      h.bind (h.take _) fun _ => h.bind (ih.suite inMethod) fun _ => h.pure _
  | false => exact h.pure _

theorem declaration_succ (h : Congruence number R) (ih : Statements R fuel more) :
    R (declaration (fuel + 1)) (declaration (more + 1)) := by
  rw [declaration, declaration]
  refine h.bind h.advance fun _ =>
    h.bind h.takeId fun _ => h.bind h.parent fun _ => h.bind (h.take _) fun _ => ?_
  exact h.bind h.openBlock fun _ =>
      h.bind ih.methods fun _ => h.bind h.closeBlock fun _ =>
    h.bind (h.declare _) fun _ => h.pure _

theorem methods_succ (h : Congruence number R) (ih : Statements R fuel more) :
    R (methods (fuel + 1)) (methods (more + 1)) := by
  rw [methods, methods]
  refine h.bind ih.method fun _ => h.bind h.peek fun token => ?_
  split
  · exact h.pure _
  · exact h.bind ih.methods fun _ => h.pure _

theorem method_succ (h : Congruence number R) (ih : Statements R fuel more)
    (hfuel : fuel ≤ more) :
    R (method (fuel + 1)) (method (more + 1)) := by
  rw [method, method]
  exact h.bind (h.methodHeader hfuel) fun _ => h.bind (ih.suite true) fun _ => h.pure _

theorem statements (h : Congruence number R) (hfuel : fuel ≤ more) :
    Statements R fuel more := by
  induction fuel generalizing more with
  | zero => constructor <;> (intros; exact h.starve _)
  | succ fuel ih =>
    obtain ⟨more, rfl⟩ : ∃ n, more = n + 1 := ⟨more - 1, by omega⟩
    have hfuel := Nat.le_of_succ_le_succ hfuel
    exact {
      statement := h.statement_succ (ih hfuel) hfuel
      statements := h.statements_succ (ih hfuel)
      suite := h.suite_succ (ih hfuel)
      conditional := h.conditional_succ (ih hfuel) hfuel
      declaration := h.declaration_succ (ih hfuel)
      methods := h.methods_succ (ih hfuel)
      method := h.method_succ (ih hfuel) hfuel }

end Congruence

/-! ## More fuel -/

theorem refines_congruence : Congruence id Run.Refines where
  pure _ := .refl _
  bind hx hf := .bind hx hf
  starve _ := .starve _
  fail e := by
    rw [ParseError.renumber_id]
    exact .refl _
  look _ := .refl _
  line hf := .bind (.refl _) hf
  latest? _ := .refl _
  advance := .refl _
  check _ := .refl _
  declare _ := .refl _

/-- Statements that were not starved are read in the same way with more fuel. -/
theorem refines_statements {fuel more : Nat} (h : fuel ≤ more) (stop : Token → Bool)
    (inMethod : Bool) :
    Run.Refines (statements fuel stop inMethod) (statements more stop inMethod) :=
  (refines_congruence.statements h).statements stop inMethod

end Parser

end Mint
