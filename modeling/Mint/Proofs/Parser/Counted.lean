import Mint.Program

/-!
# Parsers that count

How many productions a parser calls is nowhere to be seen in what it yields. Here the
productions are written down a second time, with a count of the calls that a run from a
state makes. The parser in a counted production is the production itself
(`Mint.Proofs.Parser.Progress` shows that along with the bounds), and so the count is
one of the parser and not of something like it.

Every production counts, and every turn of a loop: loops are productions that call
themselves.
-/

namespace Mint

open Mint.Parser (Level)

/-- A parser, and how many calls of productions it makes from a state on. -/
structure Counted (α : Type) where
  parser : Parser α
  calls : ParserState → Nat

namespace Counted

variable {α β : Type}

/-- What comes second is run from where the first has come to, if it comes to an end. -/
instance : Monad Counted where
  pure a := ⟨pure a, fun _ => 0⟩
  bind x f := ⟨x.parser >>= fun a => (f a).parser, fun s =>
    x.calls s + match x.parser s with
      | .done (a, t) => (f a).calls t
      | _ => 0⟩

/-- A parser that calls no productions. -/
def move (parser : Parser α) : Counted α := ⟨parser, fun _ => 0⟩

/-- The call of a production. -/
def call (production : Counted α) : Counted α :=
  ⟨production.parser, fun s => production.calls s + 1⟩

/-- `Parser.segments`, counted. -/
def segments : Nat → Counted (List String)
  | 0 => move Run.starve
  | fuel + 1 => call do
    if ← move (Parser.atChar '.') then
      move Parser.advance
      let segment ← move Parser.takeId
      return segment :: (← segments fuel)
    else
      return []

mutual

/-- `Parser.expression`, counted. -/
def expression : Nat → Level → Counted Node
  | 0, _ => move Run.starve
  | fuel + 1, .negation => call do
    if ← move (Parser.atToken (.keyword .notKw)) then
      move Parser.advance
      return .not (← expression fuel .negation)
    else
      expression fuel .comparison
  | fuel + 1, .comparison => call do
    let left ← expression fuel .sum
    match Parser.comparator? (← move Parser.peek) with
    | none => return left
    | some op =>
      move Parser.advance
      return .compare op left (← expression fuel .sum)
  | fuel + 1, .sign => call do
    if ← move (Parser.atChar '-') then
      move Parser.advance
      return Parser.negative (← expression fuel .sign)
    else
      calling fuel (← atom fuel)
  | fuel + 1, level => call do chain fuel level (← expression fuel level.operand)

/-- `Parser.chain`, counted. -/
def chain : Nat → Level → Node → Counted Node
  | 0, _, _ => move Run.starve
  | fuel + 1, level, left => call do
    match level.join? (← move Parser.peek) with
    | none => return left
    | some join =>
      move Parser.advance
      let right ← expression fuel level.operand
      chain fuel level (join left right)

/-- `Parser.calls`, counted. -/
def calling : Nat → Node → Counted Node
  | 0, _ => move Run.starve
  | fuel + 1, object => call do
    if ← move (Parser.atChar '.') then
      move Parser.advance
      let method ← move Parser.takeId
      if ← move (Parser.atChar '(') then
        let args ← arguments fuel
        calling fuel (.call object method args)
      else
        move (Parser.unexpected .argumentList)
    else
      return object

/-- `Parser.atom`, counted. -/
def atom : Nat → Counted Node
  | 0 => move Run.starve
  | fuel + 1 => call do
    let token ← move Parser.peek
    match Parser.constant? token, token with
    | some node, _ =>
      move Parser.advance
      return node
    | none, .char '(' =>
      move Parser.advance
      let inner ← expression fuel .disjunction
      move (Parser.takeChar ')')
      return inner
    | none, .id _ => name fuel
    | none, _ => move (Parser.unexpected .expression)

/-- `Parser.name`, counted. -/
def name : Nat → Counted Node
  | 0 => move Run.starve
  | fuel + 1 => call do
    let start ← move Parser.line
    let first ← move Parser.takeId
    let more ← segments fuel
    if ← move (Parser.atChar '(') then
      match more.getLast? with
      | some method =>
        return .call (.path (first :: more.dropLast)) method (← arguments fuel)
      | none =>
        if first = Parser.textConversion then
          move (Parser.takeChar '(')
          let operand ← expression fuel .disjunction
          move (Parser.takeChar ')')
          return .str operand
        else
          match ← move (Parser.latest? first) with
          | some cls => return .create cls (← arguments fuel)
          | none => move (Parser.failAt start (.unknownCallee first))
    else
      return .path (first :: more)

/-- `Parser.arguments`, counted. -/
def arguments : Nat → Counted (List Node)
  | 0 => move Run.starve
  | fuel + 1 => call do
    move (Parser.takeChar '(')
    let args ← if ← move (Parser.atChar ')') then pure [] else expressions fuel
    move (Parser.takeChar ')')
    return args

/-- `Parser.expressions`, counted. -/
def expressions : Nat → Counted (List Node)
  | 0 => move Run.starve
  | fuel + 1 => call do
    let first ← expression fuel .disjunction
    if ← move (Parser.atChar ',') then
      move Parser.advance
      return first :: (← expressions fuel)
    else
      return [first]

end

/-- `Parser.assignment`, counted. -/
def assignment (start : Nat) (target : Node) (value : Counted Node) :
    Counted Node := call <|
  match target with
  | .path segments =>
    match segments.getLast? with
    | none => move (Parser.failAt start .invalidTarget)
    | some last => do
      move Parser.advance
      let value ← value
      match segments.dropLast with
      | [] => return .assign last value
      | object => return .setField object last value
  | _ => move (Parser.failAt start .invalidTarget)

/-- `Parser.simple`, counted. -/
def simple (fuel : Nat) (inMethod : Bool) : Counted Node := call do
  match ← move Parser.peek with
  | .keyword .returnKw =>
    if inMethod then
      move Parser.advance
      if ← move (Parser.atToken Token.newline) then
        return .ret .none
      else
        return .ret (← expression fuel .disjunction)
    else
      move (Parser.failAt (← move Parser.line) .strayReturn)
  | .keyword .printKw =>
    move Parser.advance
    if ← move (Parser.atToken Token.newline) then
      return .print []
    else
      return .print (← expressions fuel)
  | _ =>
    let start ← move Parser.line
    let target ← expression fuel .disjunction
    if ← move (Parser.atChar '=') then
      assignment start target (expression fuel .disjunction)
    else
      return target

/-- `Parser.parameters`, counted. -/
def parameters : Nat → Counted (List String)
  | 0 => move Run.starve
  | fuel + 1 => call do
    if ← move (Parser.atChar ',') then
      move Parser.advance
      let param ← move Parser.takeId
      return param :: (← parameters fuel)
    else
      return []

/-- `Parser.methodHeader`, counted. -/
def methodHeader (fuel : Nat) : Counted (String × List String) := call do
  move (Parser.take (.keyword .defKw))
  let method ← move Parser.takeId
  move (Parser.takeChar '(')
  let start ← move Parser.line
  if ← move (Parser.atToken (.id Method.receiverName)) then
    move Parser.advance
    let params ← parameters fuel
    move (Parser.takeChar ')')
    move (Parser.takeChar ':')
    return (method, params)
  else
    move (Parser.failAt start (.missingSelf method))

mutual

/-- `Parser.statement`, counted. -/
def statement : Nat → Bool → Counted Node
  | 0, _ => move Run.starve
  | fuel + 1, inMethod => call do
    match ← move Parser.peek with
    | .keyword .classKw => declaration fuel
    | .keyword .ifKw => conditional fuel inMethod
    | _ =>
      let node ← simple fuel inMethod
      move (Parser.take Token.newline)
      return node

/-- `Parser.statements`, counted. -/
def statements : Nat → (Token → Bool) → Bool → Counted (List Node)
  | 0, _, _ => move Run.starve
  | fuel + 1, stop, inMethod => call do
    if stop (← move Parser.peek) then
      return []
    else
      let first ← statement fuel inMethod
      return first :: (← statements fuel stop inMethod)

/-- `Parser.suite`, counted. -/
def suite : Nat → Bool → Counted Node
  | 0, _ => move Run.starve
  | fuel + 1, inMethod => call do
    move Parser.openBlock
    let nodes ← statements fuel Parser.endsBlock inMethod
    move Parser.closeBlock
    return .block nodes

/-- `Parser.conditional`, counted. -/
def conditional : Nat → Bool → Counted Node
  | 0, _ => move Run.starve
  | fuel + 1, inMethod => call do
    move Parser.advance
    let condition ← expression fuel .disjunction
    move (Parser.takeChar ':')
    let yes ← suite fuel inMethod
    if ← move (Parser.atToken (.keyword .elseKw)) then
      move Parser.advance
      move (Parser.takeChar ':')
      return .ifElse condition yes (← suite fuel inMethod)
    else
      return .ifThen condition yes

/-- `Parser.declaration`, counted. -/
def declaration : Nat → Counted Node
  | 0 => move Run.starve
  | fuel + 1 => call do
    move Parser.advance
    let className ← move Parser.takeId
    let parent ← call (move Parser.parent)
    move (Parser.takeChar ':')
    move Parser.openBlock
    let found ← methods fuel
    move Parser.closeBlock
    return .define (← move (Parser.declare ⟨className, parent, found⟩))

/-- `Parser.methods`, counted. -/
def methods : Nat → Counted (List Method)
  | 0 => move Run.starve
  | fuel + 1 => call do
    let first ← method fuel
    if Parser.endsBlock (← move Parser.peek) then
      return [first]
    else
      return first :: (← methods fuel)

/-- `Parser.method`, counted. -/
def method : Nat → Counted Method
  | 0 => move Run.starve
  | fuel + 1 => call do
    let (methodName, params) ← methodHeader fuel
    return ⟨methodName, params, .body (← suite fuel true)⟩

end

/-- `Program.parser`, counted. -/
def program (fuel : Nat) : Counted Program := call do
  let statements ← statements fuel (· == Token.eof) false
  return ⟨statements, ← move (Run.gets fun s => s.classes)⟩

end Counted

end Mint
