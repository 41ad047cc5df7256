import Mint.Program
import Mint.Token.Spelling

/-!
# Printing programs

Writes a program in a canonical form: one statement a line, two spaces a level, every
compound expression in parentheses, one space between tokens. A class is written where
it is defined, so that reading the text back numbers the classes as before.

`Program.print` is meant for programs as the grammar has them. A node where no such node
can be written, such as a block inside an expression, leaves nothing on the page.
-/

namespace Mint

/-- A line to be written. -/
structure Row where
  depth : Nat
  tokens : List Token
deriving DecidableEq

/-- The text of a row. -/
def Row.text (row : Row) : List Char := spellLine row.depth row.tokens

namespace Printer

/-- Token lists with a comma between each two. -/
def commas : List (List Token) → List Token
  | [] => []
  | [item] => item
  | item :: rest => item ++ .char ',' :: commas rest

/-- Tokens in parentheses. -/
def parens (tokens : List Token) : List Token := .char '(' :: tokens ++ [.char ')']

/-- A dotted name. -/
def dottedTokens : List String → List Token
  | [] => []
  | [segment] => [.id segment]
  | segment :: rest => .id segment :: .char '.' :: dottedTokens rest

/-- A constant. -/
def literalToken : Literal → Token
  | .number value => .number value
  | .text value => .string value
  | .truth true => .keyword .trueKw
  | .truth false => .keyword .falseKw

/-- An arithmetic operator. -/
def arithToken : ArithOp → Token
  | .add => .char '+'
  | .sub => .char '-'
  | .mul => .char '*'
  | .div => .char '/'

/-- A connective. -/
def logicToken : LogicOp → Token
  | .and => .keyword .andKw
  | .or => .keyword .orKw

/-- A comparison. -/
def comparatorToken : Comparator → Token
  | .equal => .relation .eq
  | .notEqual => .relation .notEq
  | .less => .char '<'
  | .greater => .char '>'
  | .lessOrEqual => .relation .lessOrEq
  | .greaterOrEqual => .relation .greaterOrEq

section

variable (classes : ClassTable)

mutual

/-- An expression. -/
def expression : Node → List Token
  | .lit value => [literalToken value]
  | .none => [.keyword .noneKw]
  | .path segments => dottedTokens segments
  | .arith op left right => parens (expression left ++ arithToken op :: expression right)
  | .logic op left right => parens (expression left ++ logicToken op :: expression right)
  | .not operand => parens (.keyword .notKw :: expression operand)
  | .compare op left right =>
    parens (expression left ++ comparatorToken op :: expression right)
  | .create cls args => .id (classes.get cls).name :: parens (commas (expressions args))
  | .str operand => .id Parser.textConversion :: parens (expression operand)
  | .call object method args =>
    expression object ++ .char '.' :: .id method :: parens (commas (expressions args))
  | _ => []

/-- Expressions, each by itself. -/
def expressions : List Node → List (List Token)
  | [] => []
  | first :: rest => expression first :: expressions rest

end

/-- How a class is written at a depth. -/
abbrev ClassRows := Nat → ClassId → List Row

variable (classRows : ClassRows)

mutual

/-- A statement at a depth. -/
def statement (depth : Nat) : Node → List Row
  | .assign name value => [⟨depth, .id name :: .char '=' :: expression classes value⟩]
  | .setField object field value =>
    [⟨depth, dottedTokens (object ++ [field]) ++ .char '=' :: expression classes value⟩]
  | .ret value => [⟨depth, .keyword .returnKw :: expression classes value⟩]
  | .print args => [⟨depth, .keyword .printKw :: commas (expressions classes args)⟩]
  | .ifThen condition yes =>
    ⟨depth, .keyword .ifKw :: expression classes condition ++ [.char ':']⟩ ::
      suite (depth + 1) yes
  | .ifElse condition yes no =>
    ⟨depth, .keyword .ifKw :: expression classes condition ++ [.char ':']⟩ ::
      suite (depth + 1) yes ++
      ⟨depth, [.keyword .elseKw, .char ':']⟩ :: suite (depth + 1) no
  | .define cls => classRows depth cls
  | node => [⟨depth, expression classes node⟩]

/-- The statements of a block at a depth. -/
def suite (depth : Nat) : Node → List Row
  | .block nodes => statements depth nodes
  | .body inner => suite depth inner
  | _ => []

/-- Statements at a depth. -/
def statements (depth : Nat) : List Node → List Row
  | [] => []
  | first :: rest => statement depth first ++ statements depth rest

end

/-- A method at a depth. -/
def methodRows (depth : Nat) (method : Method) : List Row :=
  let params := (Method.receiverName :: method.params).map fun param => [Token.id param]
  ⟨depth, .keyword .defKw :: .id method.name :: parens (commas params) ++ [.char ':']⟩
    :: suite classes classRows (depth + 1) method.body

end

/-- A class of the table at a depth, classes inside it written `fuel` deep. -/
def classRowsWithin (classes : ClassTable) : Nat → ClassRows
  | 0, _, _ => []
  | fuel + 1, depth, i =>
    let cls := classes.get i
    let parent := match cls.parent with
      | none => []
      | some p => parens [.id (classes.get p).name]
    ⟨depth, .keyword .classKw :: .id cls.name :: parent ++ [.char ':']⟩
      :: cls.methods.flatMap
      (methodRows classes (classRowsWithin classes fuel) (depth + 1))

end Printer

namespace Program

/-- The rows of a program. A class comes after the classes inside it, so the size of the
table bounds how deep classes nest. -/
def rows (program : Program) : List Row :=
  Printer.statements program.classes
    (Printer.classRowsWithin program.classes program.classes.size) 0 program.statements

/-- The canonical text of a program. -/
def print (program : Program) : String :=
  String.ofList (program.rows.flatMap Row.text)

end Program

end Mint
