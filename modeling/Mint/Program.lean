import Mint.Parser.Statement

/-!
# Programs

A program is a list of top-level statements and the table of all classes declared
anywhere in it. `Program.parse` reads one from a source.
-/

namespace Mint

/-- A program that can be run. -/
structure Program where
  statements : List Node
  classes : ClassTable
deriving DecidableEq

namespace Program

/-- The statements as one node. -/
def body (program : Program) : Node := .block program.statements

/-- Fuel that suffices to parse a stream of the given length: between two tokens the
productions nest less than sixteen deep. -/
def parserFuel (readings : Nat) : Nat := 16 * (readings + 2)

/-- A whole program, up to the end of the input. -/
def parser (fuel : Nat) : Parser Program := do
  let statements ← Parser.statements fuel (· == Token.eof) false
  return ⟨statements, ← Run.gets fun s => s.classes⟩

/-- Reads a program from the first token of a stream on. -/
def ofCursor (cursor : Cursor) : Outcome ParseError Program :=
  ((parser (parserFuel cursor.ahead.length) ⟨cursor, ∅⟩).map Prod.fst).mapCause Prod.fst

/-- Reads a program from a source. -/
def parse (source : Source) : Outcome ParseError Program :=
  match Cursor.ofSource source with
  | .ok cursor => ofCursor cursor
  | .error e => .failed (.lexical e)

end Program

end Mint
