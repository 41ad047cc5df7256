import Mint.Parser.Expression

/-!
# Statements and declarations

```
program     := statement* Eof
statement   := declaration | conditional | simple Newline
simple      := 'return' [expression]
             | 'print' [expression (',' expression)*]
             | Id ('.' Id)* '=' expression
             | expression
conditional := 'if' expression ':' suite ['else' ':' suite]
suite       := Newline Indent statement+ (Dedent | Eof)
declaration := 'class' Id ['(' Id ')'] ':' Newline Indent method+ (Dedent | Eof)
method      := 'def' Id '(' 'self' (',' Id)* ')' ':' suite
```

A class enters the table when its last method has been read, so its own methods cannot
create instances of it, and a class declared inside a method comes before the class
around it.
-/

namespace Mint.Parser

/-- An assignment to a dotted name. -/
def assignment (start : Nat) (target : Node) (value : Parser Node) : Parser Node :=
  match target with
  | .path segments =>
    match segments.getLast? with
    | none => failAt start .invalidTarget
    | some last => do
      advance
      let value ← value
      match segments.dropLast with
      | [] => return .assign last value
      | object => return .setField object last value
  | _ => failAt start .invalidTarget

/-- A statement that fits on one line, without its line end. -/
def simple (fuel : Nat) (inMethod : Bool) : Parser Node := do
  match ← peek with
  | .keyword .returnKw =>
    if inMethod then
      advance
      if ← atToken Token.newline then
        return .ret .none
      else
        return .ret (← expression fuel .disjunction)
    else
      failAt (← line) .strayReturn
  | .keyword .printKw =>
    advance
    if ← atToken Token.newline then
      return .print []
    else
      return .print (← expressions fuel)
  | _ =>
    let start ← line
    let target ← expression fuel .disjunction
    if ← atChar '=' then
      assignment start target (expression fuel .disjunction)
    else
      return target

/-- The parent named in a class header, if one is. -/
def parent : Parser (Option ClassId) := do
  if ← atChar '(' then
    advance
    let start ← line
    let parentName ← takeId
    match ← latest? parentName with
    | none => failAt start (.unknownClass parentName)
    | some cls =>
      takeChar ')'
      return some cls
  else
    return none

/-- The parameters after `self`. -/
def parameters : Nat → Parser (List String)
  | 0 => Run.starve
  | fuel + 1 => do
    if ← atChar ',' then
      advance
      let param ← takeId
      return param :: (← parameters fuel)
    else
      return []

/-- A method up to the colon: its name and parameters. -/
def methodHeader (fuel : Nat) : Parser (String × List String) := do
  take (.keyword .defKw)
  let method ← takeId
  takeChar '('
  let start ← line
  if ← atToken (.id Method.receiverName) then
    advance
    let params ← parameters fuel
    takeChar ')'
    takeChar ':'
    return (method, params)
  else
    failAt start (.missingSelf method)

mutual

/-- A statement. Inside a method `return` is allowed. -/
def statement : Nat → Bool → Parser Node
  | 0, _ => Run.starve
  | fuel + 1, inMethod => do
    match ← peek with
    | .keyword .classKw => declaration fuel
    | .keyword .ifKw => conditional fuel inMethod
    | _ =>
      let node ← simple fuel inMethod
      take Token.newline
      return node

/-- Statements up to a token at which `stop` holds. -/
def statements : Nat → (Token → Bool) → Bool → Parser (List Node)
  | 0, _, _ => Run.starve
  | fuel + 1, stop, inMethod => do
    if stop (← peek) then
      return []
    else
      let first ← statement fuel inMethod
      return first :: (← statements fuel stop inMethod)

/-- An indented block of statements. -/
def suite : Nat → Bool → Parser Node
  | 0, _ => Run.starve
  | fuel + 1, inMethod => do
    openBlock
    let nodes ← statements fuel endsBlock inMethod
    closeBlock
    return .block nodes

/-- A conditional, with or without an alternative. -/
def conditional : Nat → Bool → Parser Node
  | 0, _ => Run.starve
  | fuel + 1, inMethod => do
    advance
    let condition ← expression fuel .disjunction
    takeChar ':'
    let yes ← suite fuel inMethod
    if ← atToken (.keyword .elseKw) then
      advance
      takeChar ':'
      return .ifElse condition yes (← suite fuel inMethod)
    else
      return .ifThen condition yes

/-- A class. -/
def declaration : Nat → Parser Node
  | 0 => Run.starve
  | fuel + 1 => do
    advance
    let className ← takeId
    let parent ← parent
    takeChar ':'
    openBlock
    let found ← methods fuel
    closeBlock
    return .define (← declare ⟨className, parent, found⟩)

/-- One or more methods, up to the end of the block. -/
def methods : Nat → Parser (List Method)
  | 0 => Run.starve
  | fuel + 1 => do
    let first ← method fuel
    if endsBlock (← peek) then
      return [first]
    else
      return first :: (← methods fuel)

/-- A method. -/
def method : Nat → Parser Method
  | 0 => Run.starve
  | fuel + 1 => do
    let (methodName, params) ← methodHeader fuel
    return ⟨methodName, params, .body (← suite fuel true)⟩

end

end Mint.Parser
