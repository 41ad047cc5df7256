import Mint.Proofs.Parser.Moves
import Mint.Program

/-!
# Parsers that keep a log

The blocks that a parser is inside of are nowhere to be seen in its state: they are the
calls under way. Here the productions for statements and declarations are run a second
time with a log of what begins a line, and of where blocks are opened and closed.
Nothing reads the log while parsing goes on, so that forgetting it gives the parser back
(`Traced.erasesAll`, `Program.map_parseTraced`). How many blocks are open at a point of
the log is counted from the log alone (`Event.blocks`).
-/

namespace Mint

/-- What can begin a line. -/
inductive Clause where
  /-- A statement that is not an `if`. -/
  | statement
  | conditional
  | method
  /-- An `else`, with the place of the `if` that it is read for. -/
  | alternative (start : Nat)
deriving DecidableEq

/-- Whether the clause can begin with the token. -/
def Clause.beginsWith : Clause → Token → Bool
  | statement, token => token != .keyword .ifKw && token != .keyword .elseKw &&
    token != .keyword .defKw
  | conditional, token => token == .keyword .ifKw
  | method, token => token == .keyword .defKw
  | alternative _, token => token == .keyword .elseKw

/-- What is worth a note, with its place: the number of tokens before it. -/
inductive Event where
  | starts (clause : Clause) (place : Nat)
  | opens (place : Nat)
  | closes (place : Nat)
deriving DecidableEq

/-- The number of tokens that the parser has left behind. -/
def ParserState.place (s : ParserState) : Nat := s.cursor.passed.length

/-- A parser that keeps a log, the earliest event first. -/
abbrev Traced := Run ParseError (ParserState × List Event)

namespace Traced

variable {α β : Type}

/-- A parser that notes nothing. -/
def lift (parser : Parser α) : Traced α := fun r =>
  match parser r.1 with
  | .done (a, t) => .done (a, t, r.2)
  | .failed (e, t) => .failed (e, t, r.2)
  | .starved => .starved

/-- The place of the current token. -/
def place : Traced Nat := Run.gets fun r => r.1.place

/-- Puts an event at the end of the log. -/
def note (event : Event) : Traced Unit := fun r => .done ((), r.1, r.2 ++ [event])

/-- Notes that a clause starts at the current token. -/
def noteStart (clause : Clause) : Traced Unit :=
  fun r => .done ((), r.1, r.2 ++ [.starts clause r.1.place])

/-- Opens a block. It is noted at the indentation, once that has been passed. -/
def openBlock : Traced Unit := do
  lift (Parser.take Token.newline)
  let here ← place
  let _ ← lift (Parser.check (·.expect (.layout .indent)))
  lift Parser.advance
  note (.opens here)

/-- Closes a block. It is noted at the dedentation, or at the end of the input. -/
def closeBlock : Traced Unit := do
  let here ← place
  lift Parser.closeBlock
  note (.closes here)

mutual

/-- `Parser.statement` with a log. -/
def statement : Nat → Bool → Traced Node
  | 0, _ => Run.starve
  | fuel + 1, inMethod => do
    match ← lift Parser.peek with
    | .keyword .classKw => declaration fuel
    | .keyword .ifKw => conditional fuel inMethod
    | _ =>
      noteStart .statement
      let node ← lift (Parser.simple fuel inMethod)
      lift (Parser.take Token.newline)
      return node

/-- `Parser.statements` with a log. -/
def statements : Nat → (Token → Bool) → Bool → Traced (List Node)
  | 0, _, _ => Run.starve
  | fuel + 1, stop, inMethod => do
    if stop (← lift Parser.peek) then
      return []
    else
      let first ← statement fuel inMethod
      return first :: (← statements fuel stop inMethod)

/-- `Parser.suite` with a log. -/
def suite : Nat → Bool → Traced Node
  | 0, _ => Run.starve
  | fuel + 1, inMethod => do
    openBlock
    let nodes ← statements fuel Parser.endsBlock inMethod
    closeBlock
    return .block nodes

/-- `Parser.conditional` with a log. An `else` is noted with the place at which this
very conditional began. -/
def conditional : Nat → Bool → Traced Node
  | 0, _ => Run.starve
  | fuel + 1, inMethod => do
    let start ← place
    noteStart .conditional
    lift Parser.advance
    let condition ← lift (Parser.expression fuel .disjunction)
    lift (Parser.takeChar ':')
    let yes ← suite fuel inMethod
    if ← lift (Parser.atToken (.keyword .elseKw)) then
      noteStart (.alternative start)
      lift Parser.advance
      lift (Parser.takeChar ':')
      return .ifElse condition yes (← suite fuel inMethod)
    else
      return .ifThen condition yes

/-- `Parser.declaration` with a log. -/
def declaration : Nat → Traced Node
  | 0 => Run.starve
  | fuel + 1 => do
    noteStart .statement
    lift Parser.advance
    let className ← lift Parser.takeId
    let parent ← lift Parser.parent
    lift (Parser.takeChar ':')
    openBlock
    let found ← methods fuel
    closeBlock
    return .define (← lift (Parser.declare ⟨className, parent, found⟩))

/-- `Parser.methods` with a log. -/
def methods : Nat → Traced (List Method)
  | 0 => Run.starve
  | fuel + 1 => do
    let first ← method fuel
    if Parser.endsBlock (← lift Parser.peek) then
      return [first]
    else
      return first :: (← methods fuel)

/-- `Parser.method` with a log. -/
def method : Nat → Traced Method
  | 0 => Run.starve
  | fuel + 1 => do
    noteStart .method
    let (methodName, params) ← lift (Parser.methodHeader fuel)
    return ⟨methodName, params, .body (← suite fuel true)⟩

end

/-- `Program.parser` with a log. -/
def program (fuel : Nat) : Traced Program := do
  let statements ← statements fuel (· == Token.eof) false
  return ⟨statements, ← lift (Run.gets fun s => s.classes)⟩

/-! ## Forgetting the log -/

/-- What is left of an outcome without the log. -/
def forget :
    Outcome (ParseError × ParserState × List Event) (α × ParserState × List Event) →
    Outcome (ParseError × ParserState) (α × ParserState)
  | .done (a, t, _) => .done (a, t)
  | .failed (e, t, _) => .failed (e, t)
  | .starved => .starved

/-- The two do the same, and one of them keeps a log of it. -/
def Erases (x : Traced α) (p : Parser α) : Prop := ∀ s log, forget (x (s, log)) = p s

theorem Erases.lift (p : Parser α) : Erases (lift p) p := by
  intro s log
  rw [Traced.lift]
  cases hp : p s <;> rfl

theorem Erases.pure (a : α) : Erases (pure a) (pure a) := fun _ _ => rfl

theorem Erases.starve : Erases (Run.starve : Traced α) Run.starve := fun _ _ => rfl

theorem Erases.bind {x : Traced α} {p : Parser α} {f : α → Traced β} {g : α → Parser β}
    (hx : Erases x p) (hf : ∀ a, Erases (f a) (g a)) : Erases (x >>= f) (p >>= g) := by
  intro s log
  have hs := hx s log
  cases hxs : x (s, log) with
  | done r =>
    rw [hxs] at hs
    rw [Run.bind_done hxs, Run.bind_done hs.symm]
    exact hf r.1 r.2.1 r.2.2
  | failed r =>
    rw [hxs] at hs
    rw [Run.bind_failed hxs, Run.bind_failed hs.symm]
    rfl
  | starved =>
    rw [hxs] at hs
    rw [Run.bind_starved hxs, Run.bind_starved hs.symm]
    rfl

theorem Erases.noteStart {clause : Clause} {f : Unit → Traced α} {p : Parser α}
    (h : Erases (f ()) p) :
    Erases (noteStart clause >>= f) p :=
  fun s log => h s (log ++ [Event.starts clause s.place])

theorem Erases.place {f : Nat → Traced α} {p : Parser α} (h : ∀ n, Erases (f n) p) :
    Erases (place >>= f) p :=
  fun s log => h s.place s log

theorem Erases.ite {c : Prop} [Decidable c] {x y : Traced α} {p q : Parser α}
    (hx : Erases x p) (hy : Erases y q) :
    Erases (if c then x else y) (if c then p else q) := by
  split
  · exact hx
  · exact hy

/-- Notes at the end go unnoticed. -/
theorem Erases.note {x : Traced Unit} {p : Parser Unit} {event : Event} (h : Erases x p) :
    Erases (x >>= fun _ => note event) p := by
  intro s log
  rw [← h s log]
  cases hx : x (s, log) with
  | done r =>
    rw [Run.bind_done hx]
    rfl
  | failed r => rw [Run.bind_failed hx]
  | starved => rw [Run.bind_starved hx]

theorem openBlock_erases : Erases openBlock Parser.openBlock :=
  .bind (.lift _) fun _ => .place fun _ => .bind (.lift _) fun _ => .note (.lift _)

theorem closeBlock_erases : Erases closeBlock Parser.closeBlock :=
  .place fun _ => .note (.lift _)

/-- The productions with the given fuel are those without a log. -/
structure ErasesAll (fuel : Nat) : Prop where
  statement : ∀ inMethod,
    Erases (statement fuel inMethod) (Parser.statement fuel inMethod)
  statements : ∀ stop inMethod,
    Erases (statements fuel stop inMethod) (Parser.statements fuel stop inMethod)
  suite : ∀ inMethod, Erases (suite fuel inMethod) (Parser.suite fuel inMethod)
  conditional : ∀ inMethod,
    Erases (conditional fuel inMethod) (Parser.conditional fuel inMethod)
  declaration : Erases (declaration fuel) (Parser.declaration fuel)
  methods : Erases (methods fuel) (Parser.methods fuel)
  method : Erases (method fuel) (Parser.method fuel)

variable {fuel : Nat}

theorem statement_erases (ih : ErasesAll fuel) (inMethod : Bool) :
    Erases (statement (fuel + 1) inMethod) (Parser.statement (fuel + 1) inMethod) := by
  have other : Erases (do
      noteStart .statement
      let node ← lift (Parser.simple fuel inMethod)
      lift (Parser.take Token.newline)
      return node) (do
      let node ← Parser.simple fuel inMethod
      Parser.take Token.newline
      return node) :=
    .noteStart (.bind (.lift _) fun _ => .bind (.lift _) fun _ => .pure _)
  rw [statement, Parser.statement]
  refine .bind (.lift _) fun token => ?_
  cases token with
  | keyword word =>
    cases word with
    | classKw => exact ih.declaration
    | ifKw => exact ih.conditional inMethod
    | _ => exact other
  | _ => exact other

theorem conditional_erases (ih : ErasesAll fuel) (inMethod : Bool) :
    Erases (conditional (fuel + 1) inMethod)
      (Parser.conditional (fuel + 1) inMethod) := by
  rw [conditional, Parser.conditional]
  refine .place fun start =>
    .noteStart (.bind (.lift _) fun _ => .bind (.lift _) fun condition => ?_)
  refine .bind (.lift _) fun _ =>
    .bind (ih.suite inMethod) fun yes => .bind (.lift _) fun found => ?_
  refine .ite
    (.noteStart (.bind (.lift _) fun _ => .bind (.lift _) fun _ => ?_)) (.pure _)
  exact .bind (ih.suite inMethod) fun _ => .pure _

theorem declaration_erases (ih : ErasesAll fuel) :
    Erases (declaration (fuel + 1)) (Parser.declaration (fuel + 1)) := by
  rw [declaration, Parser.declaration]
  refine .noteStart (.bind (.lift _) fun _ =>
    .bind (.lift _) fun className => .bind (.lift _) fun parent => ?_)
  refine .bind (.lift _) fun _ =>
    .bind openBlock_erases fun _ => .bind ih.methods fun found => ?_
  exact .bind closeBlock_erases fun _ => .bind (.lift _) fun _ => .pure _

theorem erasesAll (fuel : Nat) : ErasesAll fuel := by
  induction fuel with
  | zero => constructor <;> (intros; exact .starve)
  | succ fuel ih =>
    exact {
      statement := statement_erases ih
      statements := fun stop inMethod => .bind (.lift _) fun token =>
        .ite (.pure _) (.bind (ih.statement inMethod) fun _ =>
          .bind (ih.statements stop inMethod) fun _ => .pure _)
      suite := fun inMethod => .bind openBlock_erases fun _ =>
        .bind (ih.statements _ inMethod) fun _ => .bind closeBlock_erases fun _ => .pure _
      conditional := conditional_erases ih
      declaration := declaration_erases ih
      methods := .bind ih.method fun _ => .bind (.lift _) fun _ =>
        .ite (.pure _) (.bind ih.methods fun _ => .pure _)
      method :=
          .noteStart (.bind (.lift _) fun _ => .bind (ih.suite true) fun _ => .pure _) }

theorem program_erases (fuel : Nat) : Erases (program fuel) (Program.parser fuel) :=
  .bind ((erasesAll fuel).statements _ false) fun _ => .bind (.lift _) fun _ => .pure _

end Traced

/-- What a run leaves, however it ends: the place it has come to and its log. -/
structure Trace where
  place : Nat
  log : List Event
deriving DecidableEq

/-- The trace of a run that stands there. -/
def Trace.of (r : ParserState × List Event) : Trace := ⟨r.1.place, r.2⟩

namespace Program

/-- Reads a program from a source and keeps a trace of it. -/
def parseTraced (source : Source) : Outcome (ParseError × Trace) (Program × Trace) :=
  match Cursor.ofSource source with
  | .ok cursor =>
    ((Traced.program (parserFuel cursor.ahead.length) (⟨cursor, ∅⟩, [])).map
      fun r => (r.1, Trace.of r.2)).mapCause fun r => (r.1, Trace.of r.2)
  | .error e => .failed (.lexical e, ⟨0, []⟩)

/-- Keeping a trace changes nothing about what is read. -/
theorem map_parseTraced (source : Source) :
    ((parseTraced source).map Prod.fst).mapCause Prod.fst = parse source := by
  rw [parseTraced, parse]
  cases Cursor.ofSource source with
  | error e => rfl
  | ok cursor =>
    have herases := Traced.program_erases (parserFuel cursor.ahead.length) ⟨cursor, ∅⟩ []
    simp only [ofCursor]
    rw [← herases]
    cases Traced.program (parserFuel cursor.ahead.length) (⟨cursor, ∅⟩, []) <;> rfl

end Program

end Mint
