import Mint.Source

/-!
# Readings of a source

A source is read line by line. What comes out is a stream of readings: tokens with their
line numbers, and in the place of a line that cannot be read the error that says so. A
faulty line contributes nothing but its error: the depth of indentation stays that of
the last line with tokens on it.

* Blank lines contribute nothing.
* Before the tokens of any other line stands one `indent` for every level gained, or one
  `dedent` for every level lost, against the last such line.
* The stream ends in `eof`. Levels still open there get no `dedent`.
* A last line without a line feed is closed as if it had one, and shares its number with
  `eof`.
* A line that is not UTF-8 is not counted by the line numbers of what follows.

Line numbers are natural numbers, without an upper bound. A counter of 32 bits gives the
same numbers as long as a source has fewer than 2 ^ 32 lines; how it would go on from
there is not modelled.
-/

namespace Mint

/-- Why a line could not be fetched as text. -/
inductive ReadFault where
  | notUtf8
  | isDirectory
deriving DecidableEq

/-- How a reading fault is described to the user. -/
def ReadFault.message : ReadFault → String
  | notUtf8 => "stream did not contain valid UTF-8"
  | isDirectory => "Is a directory (os error 21)"

/-- What a lexical error is about. -/
inductive LexFault where
  /-- The text of a line is malformed. -/
  | scan (fault : ScanFault)
  /-- A token of one kind was asked for and another is there. -/
  | unexpectedKind (expected : Token.Kind) (found : Token)
  /-- The token has the kind asked for and another payload. -/
  | unexpectedValue (expected found : Token)
  /-- A line could not be fetched. -/
  | unreadable (cause : ReadFault)
deriving DecidableEq

/-- How the fault is described to the user. -/
def LexFault.message : LexFault → String
  | scan fault => fault.message
  | unexpectedKind expected found =>
    "unexpected token kind: expected " ++ expected.name ++ ", found " ++ found.text
  | unexpectedValue expected found =>
    "unexpected token value: expected " ++ expected.text ++ ", found " ++ found.text
  | unreadable cause => "failed to read input: " ++ cause.message

/-- A lexical error and the line it was found on, counted from 1 and without an upper
bound. -/
structure LexError where
  line : Nat
  fault : LexFault
deriving DecidableEq

/-- The error as it is shown to the user. -/
def LexError.message (error : LexError) : String :=
  "lexical error on line " ++ toString error.line ++ ": " ++ error.fault.message

/-- A token and the line it stands on, counted from 1 and without an upper bound. -/
structure Lexeme where
  token : Token
  line : Nat
deriving DecidableEq

/-- One element of the stream. -/
inductive Reading where
  /-- A token in its place. -/
  | token (lexeme : Lexeme)
  /-- The error that stands for a faulty line. -/
  | fault (error : LexError)
deriving DecidableEq

namespace Reading

/-- The marks that lead from one depth to another. -/
def layoutMarks (before after : Nat) : List Token :=
  if before < after then List.replicate (after - before) (.layout .indent)
  else List.replicate (before - after) (.layout .dedent)

/-- The tokens that a non-blank line adds to the stream, given the depth before it. -/
def lineTokens (depth : Nat) (line : Line) (terminated : Bool) : List Token :=
  layoutMarks depth line.depth ++ line.tokens ++
    (if terminated then [] else [Token.newline])

/-- Tokens that stand on line `number`. -/
def place (number : Nat) (tokens : List Token) : List Reading :=
  tokens.map fun token => .token ⟨token, number⟩

/-- The readings of the physical lines `lines`, after `count` lines have been counted
and with `depth` the depth of the last line that had tokens. -/
def ofLines (depth count : Nat) : List (List UInt8) → List Reading
  | [] => place (count + 1) [Token.eof]
  | bytes :: rest =>
    match Source.decode? bytes with
    | none => .fault ⟨count + 1, .unreadable .notUtf8⟩ :: ofLines depth count rest
    | some text =>
      match Line.ofText text with
      | .error cause => .fault ⟨count + 1, .scan cause⟩ :: ofLines depth (count + 1) rest
      | .ok line =>
        let terminated := Source.isTerminated bytes
        let tokens := if line.isBlank then [] else lineTokens depth line terminated
        let depth := if line.isBlank then depth else line.depth
        if terminated then place (count + 1) tokens ++ ofLines depth (count + 1) rest
        else place (count + 1) (tokens ++ [Token.eof])

end Reading

/-- The whole stream of a source. -/
def Source.readings (source : Source) : List Reading :=
  Reading.ofLines 0 0 source.physicalLines

end Mint
