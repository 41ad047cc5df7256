import Mint.Token

/-!
# One line of source

`Line.ofText` reads the text of one physical line: how deep it is indented and which
tokens it holds. Reading is by longest match from left to right, and the first fault
ends it.

A line is read by one recursion over its characters. `Line.lexeme` says which token
starts at a character and how many of the following characters it takes along;
`Line.scan` counts those off before it looks for the next token.
-/

namespace Mint

/-- What can be wrong with the text of one line. -/
inductive ScanFault where
  /-- The leading spaces do not make whole indentation levels. -/
  | oddIndent (spaces : Nat)
  /-- A backslash in a string literal before a character that no escape uses. -/
  | invalidEscape (c : Char)
  /-- The text ends inside a string literal. -/
  | unterminatedString
  /-- A line break stands inside a string literal. -/
  | newlineInString
  /-- The digits of an integer literal exceed the 64-bit range. -/
  | intOverflow (digits : String)
deriving DecidableEq

/-- How the fault is described to the user. -/
def ScanFault.message : ScanFault → String
  | oddIndent spaces => s!"indentation of {spaces} spaces is not a multiple of 2"
  | invalidEscape c =>
    "invalid escape sequence `\\" ++ String.singleton c ++ "` in string literal"
  | unterminatedString => "unterminated string literal"
  | newlineInString => "unexpected end of line inside string literal"
  | intOverflow digits => "integer literal `" ++ digits ++ "` is too large"

/-- The contents of a physical line. The tokens end in a newline mark if the text ended
in a line break. -/
structure Line where
  depth : Nat
  tokens : List Token
deriving DecidableEq

namespace Line

/-- Spaces per indentation level. -/
def indentWidth : Nat := 2

/-- A line of spaces, a comment, or nothing. -/
def isBlank (line : Line) : Bool :=
  line.tokens.all (fun token => token == Token.newline)

/-- The character that a backslash and `c` stand for in a string literal. -/
def resolveEscape? : Char → Option Char
  | 'n' => some '\n'
  | 't' => some '\t'
  | '"' => some '"'
  | '\'' => some '\''
  | _ => none

/-- The value of the string literal whose opening `quote` has just been read, and how
many characters it takes up to and including the closing quote. -/
def stringLiteral (quote : Char) : List Char → Except ScanFault (List Char × Nat)
  | [] => .error .unterminatedString
  | c :: rest =>
    if c = quote then .ok ([], 1)
    else if c = '\\' then
      match rest with
      | [] => .error .unterminatedString
      | e :: rest' =>
        match resolveEscape? e with
        | none => .error (.invalidEscape e)
        | some value =>
          (stringLiteral quote rest').map fun (text, taken) => (value :: text, taken + 2)
    else if c = '\n' ∨ c = '\r' then .error .newlineInString
    else (stringLiteral quote rest).map fun (text, taken) => (c :: text, taken + 1)

/-- Literals are non-negative and end where the signed 64-bit range does. -/
def literalBound : Nat := Int64.maxValue.toNatClampNeg + 1

/-- The value of a run of decimal digits, leading zeros allowed. -/
def intLiteral (digits : List Char) : Except ScanFault Int64 :=
  let value := Nat.ofDigitChars 10 digits 0
  if value < literalBound then .ok (Int64.ofNat value)
  else .error (.intOverflow (String.ofList digits))

/-- Whether a name may begin with `c`. -/
def isNameStart (c : Char) : Bool := c.isAlpha || c == '_'

/-- Whether a name may go on with `c`. -/
def isNamePart (c : Char) : Bool := c.isAlphanum || c == '_'

/-- The token of a word: reserved, or a name. -/
def word (letters : List Char) : Token :=
  match Keyword.ofSpelling? (String.ofList letters) with
  | some k => .keyword k
  | none => .id (String.ofList letters)

/-- A character that starts nothing longer: half of a relation if `=` follows it, else
itself. -/
def symbol (c : Char) (rest : List Char) : Token × Nat :=
  match Relation.ofLead? c, rest with
  | some r, '=' :: _ => (.relation r, 1)
  | _, _ => (.char c, 0)

/-- The token that begins with `c`, if `c` begins one, and how many characters of `rest`
go with it. A space stands alone and a comment runs to the end of the line; neither is a
token. -/
def lexeme (c : Char) (rest : List Char) : Except ScanFault (Option Token × Nat) :=
  if c = ' ' then .ok (none, 0)
  else if c = '#' then .ok (none, (rest.takeWhile (· ≠ '\n')).length)
  else if c = '"' ∨ c = '\'' then
    (stringLiteral c rest).map fun (text, taken) =>
      (some (.string (String.ofList text)), taken)
  else if c.isDigit then
    let digits := rest.takeWhile Char.isDigit
    (intLiteral (c :: digits)).map fun value => (some (.number value), digits.length)
  else if isNameStart c then
    let letters := rest.takeWhile isNamePart
    .ok (some (word (c :: letters)), letters.length)
  else
    let (token, taken) := symbol c rest
    .ok (some token, taken)

/-- The tokens of a text whose first `skip` characters belong to a token already read.
The first line break outside a token ends the line. -/
def scan : Nat → List Char → Except ScanFault (List Token)
  | _, [] => .ok []
  | skip + 1, _ :: rest => scan skip rest
  | 0, c :: rest =>
    if c = '\n' then .ok [Token.newline]
    else do
      let (token, taken) ← lexeme c rest
      let tokens ← scan taken rest
      return token.toList ++ tokens

/-- Counting characters off is dropping them. -/
theorem scan_eq_scan_drop (skip : Nat) (text : List Char) :
    scan skip text = scan 0 (text.drop skip) := by
  induction text generalizing skip with
  | nil => cases skip <;> rfl
  | cons c rest ih =>
    cases skip with
    | zero => rfl
    | succ skip => simpa [scan] using ih skip

/-- Reads one line: its leading spaces give the depth, the rest its tokens. -/
def ofText (text : List Char) : Except ScanFault Line := do
  let spaces := (text.takeWhile (· == ' ')).length
  if spaces % indentWidth ≠ 0 then
    throw (.oddIndent spaces)
  let tokens ← scan 0 (text.drop spaces)
  return { depth := spaces / indentWidth, tokens }

end Line

end Mint
