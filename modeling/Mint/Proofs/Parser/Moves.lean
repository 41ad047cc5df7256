import Mint.Parser

/-!
# Moves along the stream

What a parser can do to its cursor. The only move is one token forward
(`ParserState.Steps`), and `ParserState.Takes` strings such moves together: it relates a
state, the tokens that are passed and the state arrived at. Statements about productions
are statements about `Takes`, and what the primitive parsers do is said here in both
directions: a success shows which tokens were passed, and tokens that can be passed show
a success.
-/

namespace Mint

namespace Cursor

/-- What the cursor has before it, its own token first. -/
def stream (c : Cursor) : List Reading := .token c.current :: c.ahead

/-- The stream from its beginning, as far as no errors were passed. -/
def whole (c : Cursor) : List Reading := c.passed.reverse.map .token ++ c.stream

/-- The stream ends in the end of the input. -/
def Closed (c : Cursor) : Prop := ∃ n, c.stream.getLast? = some (.token ⟨Token.eof, n⟩)

/-- The cursor on the next token. -/
def after (c : Cursor) (lexeme : Lexeme) (rest : List Reading) : Cursor :=
  ⟨c.current :: c.passed, lexeme, rest⟩

end Cursor

namespace ParserState

/-- The second state is the first with the cursor on the next token. -/
def Steps (s t : ParserState) : Prop :=
  ∃ lexeme rest, s.cursor.ahead = .token lexeme :: rest ∧
    t = { s with cursor := s.cursor.after lexeme rest }

/-- Passing the tokens leads from one state to the other. -/
inductive Takes : ParserState → List Token → ParserState → Prop where
  | nil {s} : Takes s [] s
  | cons {s t ts u} (hstep : Steps s t)
    (htail : Takes t ts u) : Takes s (s.cursor.token :: ts) u

theorem Steps.classes_eq {s t : ParserState} (h : s.Steps t) : t.classes = s.classes := by
  obtain ⟨lexeme, rest, -, rfl⟩ := h
  rfl

theorem Steps.stream_eq {s t : ParserState} (h : s.Steps t) :
    s.cursor.stream = .token s.cursor.current :: t.cursor.stream := by
  obtain ⟨lexeme, rest, hahead, rfl⟩ := h
  rw [Cursor.stream, hahead]
  rfl

theorem Steps.passed_eq {s t : ParserState} (h : s.Steps t) :
    t.cursor.passed = s.cursor.current :: s.cursor.passed := by
  obtain ⟨lexeme, rest, -, rfl⟩ := h
  rfl

theorem Steps.closed {s t : ParserState} (h : s.Steps t) (hs : s.cursor.Closed) :
    t.cursor.Closed := by
  obtain ⟨n, hn⟩ := hs
  rw [h.stream_eq, Cursor.stream, List.getLast?_cons_cons] at hn
  exact ⟨n, hn⟩

namespace Takes

variable {s t u : ParserState} {ts us : List Token} {token : Token}

theorem trans (h : s.Takes ts t) (h' : t.Takes us u) : s.Takes (ts ++ us) u := by
  induction h with
  | nil => exact h'
  | cons hstep _ ih => exact .cons hstep (ih h')

theorem split (h : s.Takes (ts ++ us) u) :
    ∃ t, s.Takes ts t ∧ t.Takes us u ∧ t.classes = s.classes := by
  induction ts generalizing s with
  | nil => exact ⟨s, .nil, h, rfl⟩
  | cons token ts ih =>
    cases h with
    | cons hstep htail =>
      obtain ⟨t, hleft, hright, hclasses⟩ := ih htail
      exact ⟨t, .cons hstep hleft, hright, by rw [hclasses, hstep.classes_eq]⟩

theorem exists_last (h : s.Takes ts u) (hlast : ts.getLast? = some token) :
    ∃ t : ParserState, t.Takes [token] u := by
  obtain ⟨init, rfl⟩ := List.getLast?_eq_some_iff.mp hlast
  obtain ⟨t, -, htoken, -⟩ := h.split
  exact ⟨t, htoken⟩

theorem of_steps (htoken : s.cursor.token = token) (hstep : s.Steps t) :
    s.Takes [token] t := by
  subst htoken
  exact .cons hstep .nil

/-- The first of the tokens is the current one. -/
theorem head (h : s.Takes (token :: ts) u) :
    s.cursor.token = token ∧ ∃ t, s.Steps t ∧ t.Takes ts u := by
  cases h with
  | cons hstep htail => exact ⟨rfl, _, hstep, htail⟩

theorem eq_of_nil (h : s.Takes [] u) : u = s := by
  cases h
  rfl

theorem classes_eq (h : s.Takes ts u) : u.classes = s.classes := by
  induction h with
  | nil => rfl
  | cons hstep _ ih => rw [ih, hstep.classes_eq]

theorem closed (h : s.Takes ts u) (hs : s.cursor.Closed) : u.cursor.Closed := by
  induction h with
  | nil => exact hs
  | cons hstep _ ih => exact ih (hstep.closed hs)

/-- What is passed is a piece of the stream, and it is put behind the cursor. -/
theorem lexemes (h : s.Takes ts u) : ∃ ls : List Lexeme, ls.map Lexeme.token = ts ∧
    s.cursor.stream = ls.map .token ++ u.cursor.stream ∧
    u.cursor.passed = ls.reverse ++ s.cursor.passed := by
  induction h with
  | nil => exact ⟨[], rfl, rfl, rfl⟩
  | @cons s t ts u hstep _ ih =>
    obtain ⟨ls, hts, hstream, hpassed⟩ := ih
    refine ⟨s.cursor.current :: ls, by rw [List.map_cons, hts], ?_, ?_⟩
    · rw [hstep.stream_eq, hstream, List.map_cons, List.cons_append]
    · rw [hpassed, hstep.passed_eq, List.reverse_cons, List.append_assoc,
        List.singleton_append]

/-- Moving along the stream does not change what the whole of it is. -/
theorem whole_eq (h : s.Takes ts u) : u.cursor.whole = s.cursor.whole := by
  obtain ⟨ls, -, hstream, hpassed⟩ := h.lexemes
  rw [Cursor.whole, Cursor.whole, hstream, hpassed]
  simp

/-- Tokens that stand next in the stream can be passed, as long as something follows
them. -/
theorem of_stream {ls : List Lexeme} {rest : List Reading} {next : Lexeme}
    (h : s.cursor.stream = ls.map .token ++ .token next :: rest) :
    ∃ t, s.Takes (ls.map Lexeme.token) t ∧ t.cursor.stream = .token next :: rest := by
  induction ls generalizing s with
  | nil => exact ⟨s, .nil, h⟩
  | cons l ls ih =>
    obtain ⟨hcurrent, hahead⟩ := List.cons.inj h
    obtain ⟨l', rest', hl'⟩ :
        ∃ l' rest', ls.map Reading.token ++ .token next :: rest = .token l' :: rest' := by
      cases ls with
      | nil => exact ⟨next, rest, rfl⟩
      | cons l' ls => exact ⟨l', _, rfl⟩
    have hstep : s.Steps { s with cursor := s.cursor.after l' rest' } :=
      ⟨l', rest', by rw [hahead]; exact hl', rfl⟩
    have hstream := hstep.stream_eq
    rw [h] at hstream
    obtain ⟨t, htakes, ht⟩ := ih (List.cons.inj hstream).2.symm
    refine ⟨t, ?_, ht⟩
    have htoken : s.cursor.token = l.token := by
      rw [Cursor.token, Reading.token.inj hcurrent]
    rw [List.map_cons, ← htoken]
    exact .cons hstep htakes

end Takes

end ParserState

namespace Parser

variable {s t u : ParserState} {α : Type}

/-! ## Looking -/

theorem peek_bind (k : Token → Parser α) : (peek >>= k) s = k s.cursor.token s := rfl

theorem line_bind (k : Nat → Parser α) : (line >>= k) s = k s.cursor.line s := rfl

theorem atToken_bind (token : Token) (k : Bool → Parser α) :
    (atToken token >>= k) s = k (s.cursor.token == token) s := rfl

theorem atChar_bind (c : Char) (k : Bool → Parser α) :
    (atChar c >>= k) s = k (s.cursor.token.isChar c) s := rfl

theorem latest?_bind (name : String) (k : Option ClassId → Parser α) :
    (latest? name >>= k) s = k (s.classes.latest? name) s := rfl

theorem isChar_iff {token : Token} {c : Char} :
    token.isChar c = true ↔ token = .char c := by
  rw [Token.isChar, beq_iff_eq]

/-! ## Moving -/

theorem advance_of_steps (h : s.Steps t) : advance s = .done ((), t) := by
  obtain ⟨lexeme, rest, hahead, rfl⟩ := h
  simp only [advance, Cursor.next, hahead]
  rfl

/-- A successful `advance` is a step, or nothing is ahead and it stays in place. -/
theorem steps_or_eq_of_advance (h : advance s = .done ((), t)) :
    s.Steps t ∨ s.cursor.ahead = [] ∧ t = s := by
  cases hahead : s.cursor.ahead with
  | nil =>
    simp only [advance, Cursor.next, hahead] at h
    cases h
    exact .inr ⟨rfl, rfl⟩
  | cons reading rest =>
    cases reading with
    | token lexeme =>
      simp only [advance, Cursor.next, hahead] at h
      cases h
      exact .inl ⟨lexeme, rest, hahead, rfl⟩
    | fault e =>
      simp only [advance, Cursor.next, hahead] at h
      cases h

/-- Only at the end of the input does a successful `advance` stay in place. -/
theorem steps_of_advance (hs : s.cursor.Closed) (htoken : s.cursor.token ≠ Token.eof)
    (h : advance s = .done ((), t)) : s.Steps t := by
  rcases steps_or_eq_of_advance h with hstep | ⟨hahead, -⟩
  · exact hstep
  · obtain ⟨n, hn⟩ := hs
    rw [Cursor.stream, hahead] at hn
    exact absurd (by rw [Cursor.token, Reading.token.inj (Option.some.inj hn)]) htoken

/-- A failed `advance` has passed nothing. -/
theorem passed_of_advance {e : ParseError} (h : advance s = .failed (e, t)) :
    t.cursor.passed = s.cursor.passed := by
  cases hahead : s.cursor.ahead with
  | nil =>
    simp only [advance, Cursor.next, hahead] at h
    cases h
  | cons reading rest =>
    cases reading with
    | token lexeme =>
      simp only [advance, Cursor.next, hahead] at h
      cases h
    | fault e =>
      simp only [advance, Cursor.next, hahead] at h
      cases h
      rfl

theorem takes_of_advance {token : Token} (hs : s.cursor.Closed)
    (htoken : s.cursor.token = token) (hne : token ≠ Token.eof)
    (h : advance s = .done ((), t)) : s.Takes [token] t :=
  .of_steps htoken (steps_of_advance hs (by rwa [htoken]) h)

theorem expectValue_ok_iff {c : Cursor} {token : Token} :
    c.expectValue token = .ok () ↔ c.token = token := by
  rw [Cursor.expectValue, Cursor.expect]
  by_cases hkind : c.token.kind = token.kind
  · rw [if_pos hkind]
    by_cases htoken : c.token = token
    · simp [htoken]
    · simp [htoken]
  · rw [if_neg hkind]
    simp only [reduceCtorEq, false_iff]
    intro htoken
    exact hkind (by rw [htoken])

theorem expectId_ok_iff {c : Cursor} {name : String} :
    c.expectId = .ok name ↔ c.token = .id name := by
  rw [Cursor.expectId]
  split
  · next hid => simp [hid]
  · next hid =>
    simp only [reduceCtorEq, false_iff]
    exact hid name

theorem token_of_expect_indent {c : Cursor} {token : Token}
    (h : c.expect (.layout .indent) = .ok token) :
    c.token = .layout .indent := by
  rw [Cursor.expect] at h
  split at h
  · next hkind =>
    cases htoken : c.token <;> rw [htoken] at hkind <;> cases hkind
    rfl
  · cases h

theorem check_of_ok {passes : Cursor → Except LexError α} {a : α}
    (h : passes s.cursor = .ok a) :
    check passes s = .done (a, s) := by
  simp only [check, h]

theorem ok_of_check {passes : Cursor → Except LexError α} {a : α}
    (h : check passes s = .done (a, t)) :
    passes s.cursor = .ok a ∧ t = s := by
  cases hp : passes s.cursor with
  | ok b =>
    rw [check_of_ok hp] at h
    cases h
    exact ⟨rfl, rfl⟩
  | error e =>
    simp only [check, hp] at h
    cases h

/-- A token that was taken was the current one. -/
theorem takes_of_take {token : Token} (hs : s.cursor.Closed) (hne : token ≠ Token.eof)
    (h : take token s = .done ((), t)) : s.Takes [token] t := by
  obtain ⟨_, s', hcheck, hadvance⟩ := Run.bind_eq_done_iff.mp h
  obtain ⟨hok, rfl⟩ := ok_of_check hcheck
  exact takes_of_advance hs (expectValue_ok_iff.mp hok) hne hadvance

theorem take_of_takes {token : Token} {ts : List Token} (h : s.Takes (token :: ts) u) :
    ∃ t, take token s = .done ((), t) ∧ t.Takes ts u ∧ t.classes = s.classes := by
  obtain ⟨htoken, t, hstep, htail⟩ := h.head
  refine ⟨t, ?_, htail, hstep.classes_eq⟩
  rw [take, Run.bind_done (check_of_ok (expectValue_ok_iff.mpr htoken))]
  exact advance_of_steps hstep

theorem takes_of_takeChar {c : Char} (hs : s.cursor.Closed)
    (h : takeChar c s = .done ((), t)) :
    s.Takes [.char c] t :=
  takes_of_take hs (by simp) h

theorem takes_of_takeId {name : String} (hs : s.cursor.Closed)
    (h : takeId s = .done (name, t)) :
    s.Takes [.id name] t := by
  simp only [takeId, Run.bind_eq_done_iff, Run.pure_eq_done_iff] at h
  obtain ⟨found, s', hcheck, _, t', hadvance, heq⟩ := h
  obtain ⟨hok, rfl⟩ := ok_of_check hcheck
  cases heq
  exact takes_of_advance hs (expectId_ok_iff.mp hok) (by simp) hadvance

theorem takeId_of_takes {name : String} {ts : List Token}
    (h : s.Takes (.id name :: ts) u) :
    ∃ t, takeId s = .done (name, t) ∧ t.Takes ts u ∧ t.classes = s.classes := by
  obtain ⟨htoken, t, hstep, htail⟩ := h.head
  refine ⟨t, ?_, htail, hstep.classes_eq⟩
  rw [takeId, Run.bind_done (check_of_ok (expectId_ok_iff.mpr htoken)),
    Run.bind_done (advance_of_steps hstep)]
  rfl

theorem advance_of_takes {token : Token} {ts : List Token} (h : s.Takes (token :: ts) u) :
    ∃ t, advance s = .done ((), t) ∧ t.Takes ts u ∧ t.classes = s.classes := by
  obtain ⟨-, t, hstep, htail⟩ := h.head
  exact ⟨t, advance_of_steps hstep, htail, hstep.classes_eq⟩

theorem takeChar_of_takes {c : Char} {ts : List Token} (h : s.Takes (.char c :: ts) u) :
    ∃ t, takeChar c s = .done ((), t) ∧ t.Takes ts u ∧ t.classes = s.classes :=
  take_of_takes h

/-- A block is closed by a dedentation, or without a move. -/
theorem takes_of_closeBlock (hs : s.cursor.Closed) (h : closeBlock s = .done ((), u)) :
    s.Takes [.layout .dedent] u ∨ u = s := by
  rw [closeBlock, atToken_bind] at h
  split at h
  · next hdedent => exact .inl (takes_of_advance hs (beq_iff_eq.mp hdedent) (by simp) h)
  · cases h
    exact .inr rfl

end Parser

end Mint
