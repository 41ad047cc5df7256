import Mint.Cursor
import Mint.Class
import Mint.Outcome

/-!
# Parsers

What a parser is, how it can fail, and the moves that all productions are made of. A
parser works on a cursor and on the table of the classes declared so far, and it decides
on the current token alone.
-/

namespace Mint

/-- What a production was looking for when it met a token that cannot continue it. -/
inductive Expectation where
  | expression
  | argumentList
deriving DecidableEq

/-- How an expectation is described to the user. -/
def Expectation.text : Expectation → String
  | expression => "an expression"
  | argumentList => "`(` after method name"

/-- What a syntax error is about. -/
inductive SyntaxFault where
  /-- A token that cannot continue the production. -/
  | unexpected (expected : Expectation) (found : Token)
  /-- A parent that names no class declared so far. -/
  | unknownClass (name : String)
  /-- A call of a name that is no class declared so far. -/
  | unknownCallee (name : String)
  /-- `return` at a place that no method encloses. -/
  | strayReturn
  /-- A method whose parameters do not begin with `self`. -/
  | missingSelf (method : String)
  /-- `=` after something other than a dotted name. -/
  | invalidTarget
deriving DecidableEq

/-- How the fault is described to the user. -/
def SyntaxFault.message : SyntaxFault → String
  | unexpected expected found => "expected " ++ expected.text ++ ", found " ++ found.text
  | unknownClass name => "unknown class " ++ name
  | unknownCallee name => name ++ " is not a class and cannot be called"
  | strayReturn => "return outside of a method"
  | missingSelf method => "method " ++ method ++ " must take self as its first parameter"
  | invalidTarget => "only names and fields can be assigned to"

/-- Why a source is not a program. -/
inductive ParseError where
  | lexical (error : LexError)
  | grammatical (line : Nat) (fault : SyntaxFault)
deriving DecidableEq

namespace ParseError

/-- The line that the error is reported on. -/
def line : ParseError → Nat
  | lexical error => error.line
  | grammatical line _ => line

/-- The error as it is shown to the user. -/
def message : ParseError → String
  | lexical error => error.message
  | grammatical line fault =>
    "syntax error on line " ++ toString line ++ ": " ++ fault.message

end ParseError

/-- What a parser works on. -/
structure ParserState where
  cursor : Cursor
  classes : ClassTable
deriving DecidableEq

/-- A production of the grammar that yields an `α`. -/
abbrev Parser := Run ParseError ParserState

namespace Parser

/-- The current token. -/
def peek : Parser Token := Run.gets fun s => s.cursor.token

/-- The line of the current token. -/
def line : Parser Nat := Run.gets fun s => s.cursor.line

/-- Whether the current token is `token`. -/
def atToken (token : Token) : Parser Bool := Run.gets fun s => s.cursor.token == token

/-- Whether the current token is the character `c`. -/
def atChar (c : Char) : Parser Bool := Run.gets fun s => s.cursor.token.isChar c

/-- Moves to the next token. -/
def advance : Parser Unit := fun s =>
  match Cursor.next s.cursor with
  | .ok _ cursor => .done ((), { s with cursor })
  | .error e cursor => .failed (.lexical e, { s with cursor })

/-- A check of the current token. -/
def check {α : Type} (passes : Cursor → Except LexError α) : Parser α := fun s =>
  match passes s.cursor with
  | .ok a => .done (a, s)
  | .error e => .failed (.lexical e, s)

/-- Takes the token `token`. -/
def take (token : Token) : Parser Unit := do
  check (·.expectValue token)
  advance

/-- Takes the character `c`. -/
def takeChar (c : Char) : Parser Unit := take (.char c)

/-- Takes a name. -/
def takeId : Parser String := do
  let name ← check (·.expectId)
  advance
  return name

/-- Fails at the given line. -/
def failAt {α : Type} (line : Nat) (fault : SyntaxFault) : Parser α :=
  Run.fail (.grammatical line fault)

/-- Fails at the current token. -/
def unexpected {α : Type} (expected : Expectation) : Parser α := do
  failAt (← line) (.unexpected expected (← peek))

/-- Opens a block: a line end, then an indentation. -/
def openBlock : Parser Unit := do
  take Token.newline
  let _ ← check (·.expect (.layout .indent))
  advance

/-- Whether a block ends here. The end of the input ends every block. -/
def endsBlock (token : Token) : Bool := token == .layout .dedent || token == .layout .eof

/-- Closes a block. The end of the input stays for the blocks around it. -/
def closeBlock : Parser Unit := do
  if ← atToken (.layout .dedent) then
    advance

/-- The latest class of that name. -/
def latest? (name : String) : Parser (Option ClassId) :=
  Run.gets fun s => s.classes.latest? name

/-- Adds a class to the table and returns its number. -/
def declare (cls : Class) : Parser ClassId := fun s =>
  .done (s.classes.size, { s with classes := s.classes.push cls })

end Parser

end Mint
