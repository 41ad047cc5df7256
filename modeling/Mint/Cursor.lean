import Mint.Reading

/-!
# A cursor on the stream of readings

A cursor stands on a token. `Cursor.next` moves it to the following token and stays
where it is at the end of the input. When the next reading is the error of a faulty
line, `next` reports that error once, stays on its token, and the line is gone: the
following `next` goes on behind it.

The checks (`expect` and its relatives) look at the current token only. `Query` lists
everything that can be asked of a cursor, so that statements can range over arbitrary
sequences of requests.
-/

namespace Mint

/-- A place in the stream. -/
structure Cursor where
  /-- The tokens already left behind, the latest first. -/
  passed : List Lexeme
  current : Lexeme
  /-- What has not been reached yet. -/
  ahead : List Reading
deriving DecidableEq

namespace Cursor

/-- A step that may move a cursor; a failed step has a cursor too. -/
abbrev Step := EStateM LexError Cursor

/-- A cursor on the first token of a stream. It fails if a faulty line comes first. -/
def start : List Reading → Except LexError Cursor
  | .token first :: rest => .ok ⟨[], first, rest⟩
  | .fault e :: _ => .error e
  | [] => .ok ⟨[], ⟨Token.eof, 1⟩, []⟩

/-- A cursor on the first token of a source. -/
def ofSource (source : Source) : Except LexError Cursor := start source.readings

/-- The token under the cursor. -/
abbrev token (c : Cursor) : Token := c.current.token

/-- The line of the token under the cursor. -/
abbrev line (c : Cursor) : Nat := c.current.line

/-- Moves to the next token and returns it. -/
def next : Step Token := fun c =>
  match c.ahead with
  | [] => .ok c.token c
  | .token lexeme :: rest => .ok lexeme.token ⟨c.current :: c.passed, lexeme, rest⟩
  | .fault e :: rest => .error e { c with ahead := rest }

/-- The error of asking for a kind that is not there. -/
def wrongKind (c : Cursor) (expected : Token.Kind) : LexError :=
  ⟨c.line, .unexpectedKind expected c.token⟩

/-- The current token, which must have the given kind. -/
def expect (c : Cursor) (kind : Token.Kind) : Except LexError Token :=
  if c.token.kind = kind then .ok c.token else .error (c.wrongKind kind)

/-- Checks that the current token is `expected`, its kind first. -/
def expectValue (c : Cursor) (expected : Token) : Except LexError Unit :=
  match c.expect expected.kind with
  | .error e => .error e
  | .ok found =>
    if found = expected then .ok () else .error ⟨c.line, .unexpectedValue expected found⟩

/-- The current token, which must be a name. -/
def expectId (c : Cursor) : Except LexError String :=
  match c.token with
  | .id name => .ok name
  | _ => .error (c.wrongKind .id)

/-- The current token, which must be a number. -/
def expectNumber (c : Cursor) : Except LexError Int64 :=
  match c.token with
  | .number value => .ok value
  | _ => .error (c.wrongKind .number)

/-- The current token, which must be a single character. -/
def expectChar (c : Cursor) : Except LexError Char :=
  match c.token with
  | .char ch => .ok ch
  | _ => .error (c.wrongKind .char)

/-- The current token, which must be a string literal. -/
def expectString (c : Cursor) : Except LexError String :=
  match c.token with
  | .string text => .ok text
  | _ => .error (c.wrongKind .string)

/-- A check of the current token. -/
inductive Check where
  | kind (expected : Token.Kind)
  | value (expected : Token)
  | id
  | number
  | char
  | string
deriving DecidableEq

/-- What can be asked of a cursor. Only `next` and `nextThen` can move it. -/
inductive Query where
  | token
  | kind
  | line
  | isChar (c : Char)
  | next
  | check (what : Check)
  /-- Moves, then checks the token arrived at. -/
  | nextThen (what : Check)
deriving DecidableEq

/-- What a query is answered with. -/
inductive Answer where
  | token (token : Token)
  | kind (kind : Token.Kind)
  | line (line : Nat)
  | truth (value : Bool)
  | number (value : Int64)
  | char (c : Char)
  | text (text : String)
  /-- The check passed and has nothing to tell. -/
  | passed
deriving DecidableEq

/-- The answer to a check. -/
def Check.ask (check : Check) (c : Cursor) : Except LexError Answer :=
  match check with
  | .kind expected => (c.expect expected).map .token
  | .value expected => (c.expectValue expected).map fun _ => .passed
  | .id => c.expectId.map .text
  | .number => c.expectNumber.map .number
  | .char => c.expectChar.map .char
  | .string => c.expectString.map .text

/-- A check as a step that does not move. -/
def Check.step (check : Check) : Step Answer := fun c =>
  match check.ask c with
  | .ok answer => .ok answer c
  | .error e => .error e c

/-- Answers a query. -/
def Query.step : Query → Step Answer
  | .token => fun c => .ok (.token c.token) c
  | .kind => fun c => .ok (.kind c.token.kind) c
  | .line => fun c => .ok (.line c.line) c
  | .isChar ch => fun c => .ok (.truth (c.token.isChar ch)) c
  | .next => do return .token (← Cursor.next)
  | .check what => what.step
  | .nextThen what => do
    let _ ← Cursor.next
    what.step

/-- Answers queries in order. A failed query does not end the sequence. Each answer
comes with the cursor that the query left. -/
def answers (c : Cursor) : List Query → List (Except LexError Answer × Cursor)
  | [] => []
  | query :: rest =>
    match query.step c with
    | .ok answer c' => (.ok answer, c') :: answers c' rest
    | .error e c' => (.error e, c') :: answers c' rest

end Cursor

namespace Reading

/-- The tokens of a stream up to its first error, and that error. -/
def leading : List Reading → List Lexeme × Option LexError
  | [] => ([], none)
  | .fault e :: _ => ([], some e)
  | .token lexeme :: rest =>
    let (lexemes, e) := leading rest
    (lexeme :: lexemes, e)

end Reading

end Mint
