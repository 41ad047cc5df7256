import Mint.Number

/-!
# Tokens

The vocabulary that the rest of the library talks about source text in. A token is a
literal, a name, a single character with no word of its own, a reserved word, a
two-character relation, or a layout mark that stands for the shape of the text (line
ends, changes of indentation, the end of the input).

`Token.text` is the spelling used in diagnostics; `Token.kind` forgets the payload.
-/

namespace Mint

/-- The reserved words. -/
inductive Keyword where
  | classKw
  | returnKw
  | ifKw
  | elseKw
  | defKw
  | printKw
  | andKw
  | orKw
  | notKw
  | noneKw
  | trueKw
  | falseKw
deriving DecidableEq

namespace Keyword

/-- Every reserved word, once. -/
def all : List Keyword :=
  [classKw, returnKw, ifKw, elseKw, defKw, printKw, andKw, orKw, notKw, noneKw,
    trueKw, falseKw]

/-- How the word is written in a program. -/
def spelling : Keyword → String
  | classKw => "class"
  | returnKw => "return"
  | ifKw => "if"
  | elseKw => "else"
  | defKw => "def"
  | printKw => "print"
  | andKw => "and"
  | orKw => "or"
  | notKw => "not"
  | noneKw => "None"
  | trueKw => "True"
  | falseKw => "False"

/-- How the word is called in a diagnostic. -/
def name : Keyword → String
  | classKw => "Class"
  | returnKw => "Return"
  | ifKw => "If"
  | elseKw => "Else"
  | defKw => "Def"
  | printKw => "Print"
  | andKw => "And"
  | orKw => "Or"
  | notKw => "Not"
  | noneKw => "None"
  | trueKw => "True"
  | falseKw => "False"

/-- The reserved word spelled `word`, if it is one. -/
def ofSpelling? (word : String) : Option Keyword :=
  all.find? (fun k => k.spelling == word)

@[simp] theorem ofSpelling?_spelling (k : Keyword) : ofSpelling? k.spelling = some k := by
  cases k <;> decide

end Keyword

/-- The relations that take two characters. -/
inductive Relation where
  | eq
  | notEq
  | lessOrEq
  | greaterOrEq
deriving DecidableEq

namespace Relation

/-- Every two-character relation, once. -/
def all : List Relation := [eq, notEq, lessOrEq, greaterOrEq]

/-- The character that stands before `=`. -/
def lead : Relation → Char
  | eq => '='
  | notEq => '!'
  | lessOrEq => '<'
  | greaterOrEq => '>'

/-- How the relation is called in a diagnostic. -/
def name : Relation → String
  | eq => "Eq"
  | notEq => "NotEq"
  | lessOrEq => "LessOrEq"
  | greaterOrEq => "GreaterOrEq"

/-- The relation that `c` begins when `=` follows it. -/
def ofLead? (c : Char) : Option Relation :=
  all.find? (fun r => r.lead == c)

@[simp] theorem ofLead?_lead (r : Relation) : ofLead? r.lead = some r := by
  cases r <;> decide

end Relation

/-- Marks for the shape of the text. `indent` and `dedent` stand before the tokens of a
line that is one level deeper or shallower than the line before it. -/
inductive Layout where
  | newline
  | indent
  | dedent
  | eof
deriving DecidableEq

namespace Layout

/-- Every layout mark, once. -/
def all : List Layout := [newline, indent, dedent, eof]

/-- How the mark is called in a diagnostic. -/
def name : Layout → String
  | newline => "Newline"
  | indent => "Indent"
  | dedent => "Dedent"
  | eof => "Eof"

end Layout

/-- A token of the language. -/
inductive Token where
  /-- An integer literal. -/
  | number (value : Int64)
  /-- A name that is not reserved. -/
  | id (name : String)
  /-- A character that begins no longer token. -/
  | char (c : Char)
  /-- A string literal, its escapes resolved. -/
  | string (text : String)
  | keyword (word : Keyword)
  | relation (rel : Relation)
  | layout (mark : Layout)
deriving DecidableEq

namespace Token

/-- A token without its payload. -/
inductive Kind where
  | number
  | id
  | char
  | string
  | keyword (word : Keyword)
  | relation (rel : Relation)
  | layout (mark : Layout)
deriving DecidableEq

/-- How a kind is called in a diagnostic. -/
def Kind.name : Kind → String
  | .number => "Number"
  | .id => "Id"
  | .char => "Char"
  | .string => "String"
  | .keyword word => word.name
  | .relation rel => rel.name
  | .layout mark => mark.name

/-- Every kind, once. -/
def Kind.all : List Kind :=
  [.number, .id, .char, .string] ++ Keyword.all.map .keyword ++ Relation.all.map .relation
    ++ Layout.all.map .layout

/-- The kind called `name`. -/
def Kind.ofName? (name : String) : Option Kind :=
  Kind.all.find? (fun k => k.name == name)

@[simp] theorem Kind.ofName?_name (k : Kind) : Kind.ofName? k.name = some k := by
  rcases k with _ | _ | _ | _ | w | r | m
  · decide
  · decide
  · decide
  · decide
  · cases w <;> decide
  · cases r <;> decide
  · cases m <;> decide

/-- What a token is, whatever it carries. -/
def kind : Token → Kind
  | number _ => .number
  | id _ => .id
  | char _ => .char
  | string _ => .string
  | keyword word => .keyword word
  | relation rel => .relation rel
  | layout mark => .layout mark

/-- What a token carries besides its kind, as text. -/
def payload? : Token → Option String
  | number value => some (numberText value)
  | id name => some name
  | char c => some (String.singleton c)
  | string text => some text
  | keyword _ => none
  | relation _ => none
  | layout _ => none

/-- The token as a diagnostic shows it: its kind, with the payload in braces if there is
one. -/
def text (token : Token) : String :=
  match token.payload? with
  | some payload => token.kind.name ++ "\x7b" ++ payload ++ "\x7d"
  | none => token.kind.name

/-- Whether the token is the single character `c`. -/
def isChar (token : Token) (c : Char) : Bool :=
  token == char c

/-- The end of a line. -/
abbrev newline : Token := layout .newline

/-- The end of the input. -/
abbrev eof : Token := layout .eof

end Token

end Mint
