import Mint.Parser

/-!
# Expressions

The grammar of expressions, loosest binding first:

```
expression  := disjunction
disjunction := conjunction ('or' conjunction)*
conjunction := negation ('and' negation)*
negation    := 'not' negation | comparison
comparison  := sum [('<' | '>' | '==' | '!=' | '<=' | '>=') sum]
sum         := product (('+' | '-') product)*
product     := sign (('*' | '/') sign)*
sign        := '-' sign | calls
calls       := atom ('.' Id arguments)*
atom        := Number | String | 'True' | 'False' | 'None' | '(' expression ')' | name
name        := Id ('.' Id)* [arguments]
arguments   := '(' [expression (',' expression)*] ')'
```

Operators in a row group to the left and comparisons do not chain. A called name of one
segment is `str` or a class declared earlier; one of several segments is a method call
on what stands before the last.

The recursion is on fuel. Every production takes a token before it comes back to itself,
so a multiple of the number of tokens is enough.
-/

namespace Mint.Parser

/-- How tightly an expression binds, loosest first. -/
inductive Level where
  | disjunction
  | conjunction
  | negation
  | comparison
  | sum
  | product
  | sign
deriving DecidableEq

/-- The level of the operands. -/
def Level.operand : Level → Level
  | disjunction => conjunction
  | conjunction => negation
  | negation => comparison
  | comparison => sum
  | sum => product
  | product => sign
  | sign => sign

/-- What the operators that group to the left at a level make of their operands. -/
def Level.join? : Level → Token → Option (Node → Node → Node)
  | disjunction, .keyword .orKw => some (.logic .or)
  | conjunction, .keyword .andKw => some (.logic .and)
  | sum, .char '+' => some (.arith .add)
  | sum, .char '-' => some (.arith .sub)
  | product, .char '*' => some (.arith .mul)
  | product, .char '/' => some (.arith .div)
  | _, _ => none

/-- The comparison that a token stands for. -/
def comparator? : Token → Option Comparator
  | .char '<' => some .less
  | .char '>' => some .greater
  | .relation .eq => some .equal
  | .relation .notEq => some .notEqual
  | .relation .lessOrEq => some .lessOrEqual
  | .relation .greaterOrEq => some .greaterOrEqual
  | _ => none

/-- The constant that a token stands for. -/
def constant? : Token → Option Node
  | .number value => some (.lit (.number value))
  | .string text => some (.lit (.text text))
  | .keyword .trueKw => some (.lit (.truth true))
  | .keyword .falseKw => some (.lit (.truth false))
  | .keyword .noneKw => some .none
  | _ => none

/-- The negative of an operand is its difference from zero. -/
def negative (operand : Node) : Node := .arith .sub (.lit (.number 0)) operand

/-- The name that converts to text when it is called. -/
def textConversion : String := "str"

/-- The rest of a dotted name. -/
def segments : Nat → Parser (List String)
  | 0 => Run.starve
  | fuel + 1 => do
    if ← atChar '.' then
      advance
      let segment ← takeId
      return segment :: (← segments fuel)
    else
      return []

mutual

/-- An expression that binds at least as tightly as the level. -/
def expression : Nat → Level → Parser Node
  | 0, _ => Run.starve
  | fuel + 1, .negation => do
    if ← atToken (.keyword .notKw) then
      advance
      return .not (← expression fuel .negation)
    else
      expression fuel .comparison
  | fuel + 1, .comparison => do
    let left ← expression fuel .sum
    match comparator? (← peek) with
    | none => return left
    | some op =>
      advance
      return .compare op left (← expression fuel .sum)
  | fuel + 1, .sign => do
    if ← atChar '-' then
      advance
      return negative (← expression fuel .sign)
    else
      calls fuel (← atom fuel)
  | fuel + 1, level => do chain fuel level (← expression fuel level.operand)

/-- The operators of a level that follow `left`, with their operands. -/
def chain : Nat → Level → Node → Parser Node
  | 0, _, _ => Run.starve
  | fuel + 1, level, left => do
    match level.join? (← peek) with
    | none => return left
    | some join =>
      advance
      let right ← expression fuel level.operand
      chain fuel level (join left right)

/-- The method calls that follow `object`. -/
def calls : Nat → Node → Parser Node
  | 0, _ => Run.starve
  | fuel + 1, object => do
    if ← atChar '.' then
      advance
      let method ← takeId
      if ← atChar '(' then
        let args ← arguments fuel
        calls fuel (.call object method args)
      else
        unexpected .argumentList
    else
      return object

/-- A constant, an expression in parentheses, or a name. -/
def atom : Nat → Parser Node
  | 0 => Run.starve
  | fuel + 1 => do
    let token ← peek
    match constant? token, token with
    | some node, _ =>
      advance
      return node
    | none, .char '(' =>
      advance
      let inner ← expression fuel .disjunction
      takeChar ')'
      return inner
    | none, .id _ => name fuel
    | none, _ => unexpected .expression

/-- A dotted name, called or not. -/
def name : Nat → Parser Node
  | 0 => Run.starve
  | fuel + 1 => do
    let start ← line
    let first ← takeId
    let more ← segments fuel
    if ← atChar '(' then
      match more.getLast? with
      | some method =>
        return .call (.path (first :: more.dropLast)) method (← arguments fuel)
      | none =>
        if first = textConversion then
          takeChar '('
          let operand ← expression fuel .disjunction
          takeChar ')'
          return .str operand
        else
          match ← latest? first with
          | some cls => return .create cls (← arguments fuel)
          | none => failAt start (.unknownCallee first)
    else
      return .path (first :: more)

/-- Arguments in parentheses. -/
def arguments : Nat → Parser (List Node)
  | 0 => Run.starve
  | fuel + 1 => do
    takeChar '('
    let args ← if ← atChar ')' then pure [] else expressions fuel
    takeChar ')'
    return args

/-- One or more expressions separated by commas. -/
def expressions : Nat → Parser (List Node)
  | 0 => Run.starve
  | fuel + 1 => do
    let first ← expression fuel .disjunction
    if ← atChar ',' then
      advance
      return first :: (← expressions fuel)
    else
      return [first]

end

end Mint.Parser
