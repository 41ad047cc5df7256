import Mint.Line

/-!
# Spelling tokens

How a token is written so that reading the line gives it back. Strings are written in
double quotes, with escapes for line breaks and double quotes.

Not every token can come out of a line of source: a number has no sign, a name is not a
reserved word, and no string literal holds a backslash or a carriage return, because no
escape stands for either. `Token.isScannable` says which ones can.
-/

namespace Mint

namespace Token

/-- A character inside a string literal. -/
def literalChar (c : Char) : List Char :=
  if c = '"' then ['\\', '"']
  else if c = '\n' then ['\\', 'n']
  else [c]

/-- A string literal. -/
def literalText (text : List Char) : List Char :=
  '"' :: text.flatMap literalChar ++ ['"']

/-- How a token is written. Layout marks are not written; they are where the line is. -/
def spelling : Token → List Char
  | number value => (numberText value).toList
  | id name => name.toList
  | char c => [c]
  | string text => literalText text.toList
  | keyword word => word.spelling.toList
  | relation rel => [rel.lead, '=']
  | layout _ => []

/-- Whether a word can be a name: letters, digits and underscores that start with no
digit, not reserved. -/
def isName (letters : List Char) : Bool :=
  match letters with
  | [] => false
  | first :: rest =>
    Line.isNameStart first && rest.all Line.isNamePart &&
      (Keyword.ofSpelling? (String.ofList letters)).isNone

/-- Whether a character can be a token of its own. -/
def isSymbol (c : Char) : Bool :=
  !(c == ' ' || c == '\n' || c == '#' || c == '"' || c == '\'' || c.isDigit ||
    Line.isNameStart c)

/-- Whether a line of source can hold the token. -/
def isScannable : Token → Bool
  | number value => 0 ≤ value.toInt
  | id name => isName name.toList
  | char c => isSymbol c
  | string text => text.toList.all fun c => c != '\\' && c != '\r'
  | keyword _ => true
  | relation _ => true
  | layout _ => false

end Token

/-- Tokens written with a space between each two. -/
def spellTokens : List Token → List Char
  | [] => []
  | [token] => token.spelling
  | token :: rest => token.spelling ++ ' ' :: spellTokens rest

/-- The text of a line: its indentation, its tokens, a line break. The newline mark that
ends the tokens of a line read from source is not among `tokens`. -/
def spellLine (depth : Nat) (tokens : List Token) : List Char :=
  List.replicate (Line.indentWidth * depth) ' ' ++ spellTokens tokens ++ ['\n']

end Mint
