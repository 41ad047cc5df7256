import Mint.Proofs.Layout
import Mint.Cursor

/-!
# A lexer that reads on demand

`Lexer` is a cursor that does not have its stream to begin with. It keeps the tokens of
the lines it has read in a buffer, and when it stands on the last of them and is to move
on, it reads lines until it has more. A line that cannot be read is reported once and
leaves the buffer as it was.

Forgetting how far a lexer has read makes it a cursor on the stream of its source
(`Lexer.cursor`), and every query has the same answer on both (`Lexer.cursor_step`).
-/

namespace Mint

/-! ## The machine -/

/-- A lexer in the middle of its source. -/
structure Lexer where
  /-- The physical lines that have not been read. -/
  unread : List (List UInt8)
  /-- The tokens of the lines that have. -/
  buffer : List Lexeme
  /-- The place of the current token in the buffer. -/
  pos : Nat
  /-- The depth of the last line that had tokens. -/
  depth : Nat
  /-- The number of the last line, without an upper bound. Lines that are not UTF-8 have
  none. -/
  count : Nat
  /-- How often a line was asked for, the time included when there was none left. -/
  reads : Nat
deriving DecidableEq

namespace Lexer

/-- Another line has been read, and it has a number. -/
def counted (lexer : Lexer) (unread : List (List UInt8)) : Lexer :=
  { lexer with unread, count := lexer.count + 1, reads := lexer.reads + 1 }

/-- Adds tokens of the last line. -/
def push (lexer : Lexer) (tokens : List Token) : Lexer :=
  { lexer with buffer := lexer.buffer ++ tokens.map fun token => ⟨token, lexer.count⟩ }

/-- Reads from `lines` until tokens have been added. -/
def fill (lexer : Lexer) : List (List UInt8) → Except LexError Unit × Lexer
  | [] => (.ok (), (lexer.counted []).push [Token.eof])
  | bytes :: rest =>
    match Source.decode? bytes with
    | none =>
      (.error ⟨lexer.count + 1, .unreadable .notUtf8⟩,
        { lexer with unread := rest, reads := lexer.reads + 1 })
    | some text =>
      match Line.ofText text with
      | .error cause => (.error ⟨lexer.count + 1, .scan cause⟩, lexer.counted rest)
      | .ok line =>
        let terminated := Source.isTerminated bytes
        let ending := if terminated then [] else [Token.eof]
        if !line.isBlank then
          (.ok (), { lexer.counted rest with depth := line.depth }.push
            (Reading.lineTokens lexer.depth line terminated ++ ending))
        else if terminated then fill (lexer.counted rest) rest
        else (.ok (), (lexer.counted rest).push ending)

/-- The lexer before its first line. -/
def unopened (source : Source) : Lexer := ⟨source.physicalLines, [], 0, 0, 0, 0⟩

/-- A lexer on the first token of a source. -/
def ofSource (source : Source) : Except LexError Unit × Lexer :=
  (unopened source).fill source.physicalLines

/-- The current token and its line. -/
def current (lexer : Lexer) : Lexeme :=
  lexer.buffer.getD lexer.pos ⟨Token.eof, lexer.count⟩

/-- Whether the end of the input is in the buffer. -/
def isFinished (lexer : Lexer) : Bool :=
  lexer.buffer.getLast?.any fun lexeme => lexeme.token == Token.eof

/-- Moves to the next token. -/
def next (lexer : Lexer) : Except LexError Unit × Lexer :=
  if lexer.pos + 1 < lexer.buffer.length then
    (.ok (), { lexer with pos := lexer.pos + 1 })
  else if lexer.isFinished then (.ok (), lexer)
  else
    match lexer.fill lexer.unread with
    | (.ok (), lexer) => (.ok (), { lexer with pos := lexer.pos + 1 })
    | (.error e, lexer) => (.error e, lexer)

/-- The current token with nothing around it, to be looked at. -/
def view (lexer : Lexer) : Cursor := ⟨[], lexer.current, []⟩

end Lexer

namespace Cursor.Query

/-- Whether the query moves before it looks. -/
def moves : Query → Bool
  | .next | .nextThen _ => true
  | _ => false

/-- What the query says of the token it looks at. -/
def ask (c : Cursor) : Query → Except LexError Answer
  | .token | .next => .ok (.token c.token)
  | .kind => .ok (.kind c.token.kind)
  | .line => .ok (.line c.line)
  | .isChar ch => .ok (.truth (c.token.isChar ch))
  | .check what | .nextThen what => what.ask c

end Cursor.Query

namespace Lexer

open Cursor (Query Answer)

/-- Answers a query. -/
def step (lexer : Lexer) (query : Query) : Except LexError Answer × Lexer :=
  if query.moves then
    match lexer.next with
    | (.ok (), lexer) => (query.ask lexer.view, lexer)
    | (.error e, lexer) => (.error e, lexer)
  else (query.ask lexer.view, lexer)

/-- The lexer after queries. A failed query does not end the sequence. -/
def after (lexer : Lexer) : List Query → Lexer
  | [] => lexer
  | query :: rest => (lexer.step query).2.after rest

/-- The answers to queries, each with the lexer that the query left. -/
def answers (lexer : Lexer) : List Query → List (Except LexError Answer × Lexer)
  | [] => []
  | query :: rest => lexer.step query :: (lexer.step query).2.answers rest

/-! ## Filling the buffer -/

/-- What a lexer has not got in its buffer. -/
def remaining (lexer : Lexer) : List Reading :=
  if lexer.isFinished then [] else Reading.ofLines lexer.depth lexer.count lexer.unread

/-- The lexer has `added` to what it had, and that is how the stream goes on. -/
structure Filled (lexer : Lexer) (lines : List (List UInt8)) (added : List Lexeme)
    (lexer' : Lexer) : Prop where
  nonempty : added ≠ []
  buffer : lexer'.buffer = lexer.buffer ++ added
  pos : lexer'.pos = lexer.pos
  chopped : Source.Chopped lexer'.unread
  stream : Reading.ofLines lexer.depth lexer.count lines =
    added.map .token ++ lexer'.remaining
  line : ∀ lexeme ∈ added, lexeme.line = lexer'.count
  reads : lexer'.reads + lexer.count = lexer.reads + lexer'.count

/-- The lexer has come upon a line that cannot be read, and that is how the stream goes
on. -/
structure Blocked (lexer : Lexer) (lines : List (List UInt8)) (e : LexError)
    (lexer' : Lexer) : Prop where
  buffer : lexer'.buffer = lexer.buffer
  pos : lexer'.pos = lexer.pos
  chopped : Source.Chopped lexer'.unread
  stream : Reading.ofLines lexer.depth lexer.count lines =
    .fault e :: Reading.ofLines lexer'.depth lexer'.count lexer'.unread
  reads : lexer'.reads + lexer.count = lexer.reads + e.line

/-- What filling the buffer comes to. -/
inductive FillSpec (lexer : Lexer) (lines : List (List UInt8)) :
    Except LexError Unit × Lexer → Prop where
  | filled {added lexer'} (h : lexer.Filled lines added lexer') :
    FillSpec lexer lines (.ok (), lexer')
  | blocked {e lexer'} (h : lexer.Blocked lines e lexer') :
    FillSpec lexer lines (.error e, lexer')

section

variable {lexer lexer' : Lexer} {lines : List (List UInt8)} {e : LexError}

theorem isFinished_push (lexer : Lexer) (tokens : List Token) (last : Token) :
    (lexer.push (tokens ++ [last])).isFinished = (last == Token.eof) := by
  simp [isFinished, push]

/-- The tokens of a line, up to the last. The end of the input has nothing behind it. -/
theorem filled_push (lexer : Lexer) (tokens : List Token) {last : Token} (depth : Nat)
    {rest : List (List UInt8)} (hrest : Source.Chopped rest)
    (hstream : Reading.ofLines lexer.depth lexer.count lines =
      Reading.place (lexer.count + 1) (tokens ++ [last]) ++
        if last == Token.eof then [] else Reading.ofLines depth (lexer.count + 1) rest) :
    ∃ added, lexer.Filled lines added
      ({ lexer.counted rest with depth }.push (tokens ++ [last])) := by
  refine ⟨(tokens ++ [last]).map fun token => ⟨token, lexer.count + 1⟩, ?_, rfl, rfl,
    hrest, ?_, ?_, ?_⟩
  · simp
  · rw [hstream, remaining, isFinished_push, List.map_map]
    rfl
  · simp only [List.mem_map]
    rintro _ ⟨token, -, rfl⟩
    rfl
  · show lexer.reads + 1 + lexer.count = lexer.reads + (lexer.count + 1)
    omega

/-- Blank lines change nothing but the number of the line. -/
theorem Filled.skip {rest : List (List UInt8)} {added : List Lexeme}
    (h : (lexer.counted rest).Filled rest added lexer')
    (hstream : Reading.ofLines lexer.depth lexer.count lines =
      Reading.ofLines lexer.depth (lexer.count + 1) rest) :
    lexer.Filled lines added lexer' where
  nonempty := h.nonempty
  buffer := h.buffer
  pos := h.pos
  chopped := h.chopped
  stream := hstream.trans h.stream
  line := h.line
  reads := by
    have hreads : lexer'.reads + (lexer.count + 1) = lexer.reads + 1 + lexer'.count :=
      h.reads
    omega

theorem Blocked.skip {rest : List (List UInt8)}
    (h : (lexer.counted rest).Blocked rest e lexer')
    (hstream : Reading.ofLines lexer.depth lexer.count lines =
      Reading.ofLines lexer.depth (lexer.count + 1) rest) :
    lexer.Blocked lines e lexer' where
  buffer := h.buffer
  pos := h.pos
  chopped := h.chopped
  stream := hstream.trans h.stream
  reads := by
    have hreads : lexer'.reads + (lexer.count + 1) = lexer.reads + 1 + e.line := h.reads
    omega

theorem FillSpec.skip {rest : List (List UInt8)} {result : Except LexError Unit × Lexer}
    (h : (lexer.counted rest).FillSpec rest result)
    (hstream : Reading.ofLines lexer.depth lexer.count lines =
      Reading.ofLines lexer.depth (lexer.count + 1) rest) :
    lexer.FillSpec lines result := by
  cases h with
  | filled h => exact .filled (h.skip hstream)
  | blocked h => exact .blocked (h.skip hstream)

/-- The first line decides, unless it is blank and has others behind it. -/
theorem fillSpec_cons {bytes : List UInt8} {rest : List (List UInt8)}
    (hmarked : Source.Marked bytes) (hrest : Source.Chopped rest)
    (ih : (lexer.counted rest).FillSpec rest ((lexer.counted rest).fill rest)) :
    lexer.FillSpec (bytes :: rest) (lexer.fill (bytes :: rest)) := by
  rw [fill]
  cases htext : Source.decode? bytes with
  | none =>
    dsimp only
    refine .blocked ⟨rfl, rfl, hrest, ?_, ?_⟩
    · rw [Reading.ofLines, htext]
    · show lexer.reads + 1 + lexer.count = lexer.reads + (lexer.count + 1)
      omega
  | some text =>
    cases hline : Line.ofText text with
    | error cause =>
      simp only [hline]
      refine .blocked ⟨rfl, rfl, hrest, ?_, ?_⟩
      · rw [Reading.ofLines, htext]
        simp only [hline]
        rfl
      · show lexer.reads + 1 + lexer.count = lexer.reads + (lexer.count + 1)
        omega
    | ok line =>
      have hmarks := hmarked htext hline
      have hstream := Reading.ofLines.eq_2 lexer.depth lexer.count bytes rest
      simp only [htext, hline] at hstream ⊢
      cases hblank : line.isBlank with
      | true =>
        simp only [hblank, Bool.not_true, Bool.false_eq_true, if_true, if_false]
          at hstream ⊢
        cases hterminated : Source.isTerminated bytes with
        | true =>
          rw [hterminated] at hstream
          exact ih.skip hstream
        | false =>
          rw [hterminated] at hstream
          obtain ⟨added, h⟩ := filled_push lexer [] lexer.depth hrest
            (hstream.trans (List.append_nil _).symm)
          exact .filled h
      | false =>
        simp only [hblank, Bool.not_false, Bool.false_eq_true, if_true, if_false]
          at hstream ⊢
        cases hterminated : Source.isTerminated bytes with
        | true =>
          rw [hterminated] at hmarks hstream
          rw [CodeLine.lineTokens_eq lexer.depth hmarks] at hstream ⊢
          obtain ⟨added, h⟩ := filled_push lexer _ line.depth hrest hstream
          rw [if_pos rfl, List.append_nil]
          exact .filled h
        | false =>
          rw [hterminated] at hstream
          obtain ⟨added, h⟩ :=
            filled_push lexer _ line.depth hrest (hstream.trans (List.append_nil _).symm)
          exact .filled h

theorem fillSpec (hlines : Source.Chopped lines) :
    ∀ lexer : Lexer, lexer.FillSpec lines (lexer.fill lines) := by
  refine Source.Chopped.byLine ?_ ?_ hlines
  · intro lexer
    have hend : Reading.ofLines lexer.depth lexer.count [] =
      Reading.place (lexer.count + 1) [Token.eof] ++ [] := rfl
    obtain ⟨added, h⟩ := filled_push lexer [] lexer.depth .nil hend
    exact .filled h
  · intro bytes rest hmarked _ hrest ih lexer
    exact fillSpec_cons hmarked hrest (ih _)

/-! ## Moving -/

/-- The current token is in the buffer, and what is unread are whole lines. -/
structure Valid (lexer : Lexer) : Prop where
  inside : lexer.pos < lexer.buffer.length
  chopped : Source.Chopped lexer.unread

/-- What moving comes to. -/
inductive NextSpec (lexer : Lexer) : Except LexError Unit × Lexer → Prop where
  | within (h : lexer.pos + 1 < lexer.buffer.length) :
    NextSpec lexer (.ok (), { lexer with pos := lexer.pos + 1 })
  | finished (hlast : lexer.buffer.length ≤ lexer.pos + 1) (h : lexer.isFinished = true) :
    NextSpec lexer (.ok (), lexer)
  | filled {added : List Lexeme} {lexer' : Lexer}
    (hlast : lexer.buffer.length ≤ lexer.pos + 1) (hopen : lexer.isFinished = false)
    (h : lexer.Filled lexer.unread added lexer') :
    NextSpec lexer (.ok (), { lexer' with pos := lexer'.pos + 1 })
  | blocked {e : LexError} {lexer' : Lexer} (hlast : lexer.buffer.length ≤ lexer.pos + 1)
    (hopen : lexer.isFinished = false)
    (h : lexer.Blocked lexer.unread e lexer') : NextSpec lexer (.error e, lexer')

theorem nextSpec (h : lexer.Valid) : lexer.NextSpec lexer.next := by
  rw [next]
  split
  · next hwithin => exact .within hwithin
  · next hlast =>
    rw [Nat.not_lt] at hlast
    cases hfinished : lexer.isFinished with
    | true => exact .finished hlast hfinished
    | false =>
      have hfill := fillSpec h.chopped lexer
      generalize lexer.fill lexer.unread = result at hfill ⊢
      cases hfill with
      | filled h => exact .filled hlast hfinished h
      | blocked h => exact .blocked hlast hfinished h

theorem NextSpec.valid {result : Except LexError Unit}
    (h : lexer.NextSpec (result, lexer')) (hvalid : lexer.Valid) :
    lexer'.Valid := by
  have hinside := hvalid.inside
  cases h with
  | within hwithin => exact ⟨hwithin, hvalid.chopped⟩
  | finished => exact hvalid
  | filled _ _ h =>
    have hadded := List.length_pos_iff.mpr h.nonempty
    refine ⟨?_, h.chopped⟩
    show _ + 1 < _
    rw [h.buffer, h.pos, List.length_append]
    omega
  | blocked _ _ h => exact ⟨by rwa [h.buffer, h.pos], h.chopped⟩

/-! ## The cursor of a lexer -/

/-- The lexer as a cursor on the stream of its source. -/
def cursor (lexer : Lexer) : Cursor :=
  ⟨(lexer.buffer.take lexer.pos).reverse, lexer.current,
    (lexer.buffer.drop (lexer.pos + 1)).map .token ++ lexer.remaining⟩

theorem Valid.exists_split (h : lexer.Valid) :
    ∃ before here behind,
      lexer.buffer = before ++ here :: behind ∧ lexer.pos = before.length := by
  refine ⟨lexer.buffer.take lexer.pos, lexer.buffer.get ⟨lexer.pos, h.inside⟩,
    lexer.buffer.drop (lexer.pos + 1), ?_, ?_⟩
  · rw [List.get_eq_getElem, List.getElem_cons_drop, List.take_append_drop]
  · rw [List.length_take, Nat.min_eq_left (Nat.le_of_lt h.inside)]

theorem cursor_of_split {before : List Lexeme} {here : Lexeme} {behind : List Lexeme}
    (hbuffer : lexer.buffer = before ++ here :: behind)
    (hpos : lexer.pos = before.length) :
    lexer.cursor = ⟨before.reverse, here, behind.map .token ++ lexer.remaining⟩ := by
  have hdrop : before ++ here :: behind = (before ++ [here]) ++ behind := by simp
  rw [cursor, current, hbuffer, hpos, List.take_left, hdrop,
    List.drop_left' (by simp), ← hdrop]
  simp [List.getD_eq_getElem?_getD]

theorem NextSpec.cursor_ok (h : lexer.NextSpec (.ok (), lexer')) (hvalid : lexer.Valid) :
    Cursor.next lexer.cursor = .ok lexer'.cursor.token lexer'.cursor := by
  obtain ⟨before, here, behind, hbuffer, hpos⟩ := hvalid.exists_split
  have hlength : lexer.buffer.length = before.length + 1 + behind.length := by
    rw [hbuffer, List.length_append, List.length_cons]
    omega
  cases h with
  | within hwithin =>
    cases behind with
    | nil => simp only [List.length_nil] at hlength; omega
    | cons lexeme behind =>
      have hcursor : ({ lexer with pos := lexer.pos + 1 } : Lexer).cursor =
          ⟨(before ++ [here]).reverse, lexeme, behind.map .token ++ lexer.remaining⟩ :=
        cursor_of_split (by simpa using hbuffer) (by simpa using hpos)
      rw [cursor_of_split hbuffer hpos, hcursor, List.reverse_append]
      rfl
  | finished hlast hfinished =>
    obtain rfl : behind = [] := List.length_eq_zero_iff.mp (by omega)
    rw [cursor_of_split hbuffer hpos, remaining, if_pos hfinished]
    rfl
  | @filled added lexer' hlast hopen h =>
    obtain rfl : behind = [] := List.length_eq_zero_iff.mp (by omega)
    obtain ⟨lexeme, added, rfl⟩ := List.exists_cons_of_ne_nil h.nonempty
    have hcursor : ({ lexer' with pos := lexer'.pos + 1 } : Lexer).cursor =
        ⟨(before ++ [here]).reverse, lexeme, added.map .token ++ lexer'.remaining⟩ :=
      cursor_of_split (h.buffer.trans (by rw [hbuffer])) (by simp [h.pos, hpos])
    rw [cursor_of_split hbuffer hpos, remaining, hopen, if_neg Bool.false_ne_true,
      h.stream, hcursor, List.reverse_append]
    rfl

theorem NextSpec.cursor_error (h : lexer.NextSpec (.error e, lexer'))
    (hvalid : lexer.Valid) :
    Cursor.next lexer.cursor = .error e lexer'.cursor := by
  obtain ⟨before, here, behind, hbuffer, hpos⟩ := hvalid.exists_split
  cases h with
  | blocked hlast hopen h =>
    obtain rfl : behind = [] := by
      rw [hbuffer, hpos, List.length_append, List.length_cons] at hlast
      exact List.length_eq_zero_iff.mp (by omega)
    have hopen' : lexer'.isFinished = false := by rwa [isFinished, h.buffer]
    rw [cursor_of_split hbuffer hpos,
      cursor_of_split (h.buffer.trans hbuffer) (h.pos.trans hpos), remaining, remaining,
      hopen, hopen', if_neg Bool.false_ne_true, if_neg Bool.false_ne_true, h.stream]
    rfl

/-! ## Queries -/

/-- The answer to a query that has moved, or did not have to, as a step of the cursor. -/
def stay (c : Cursor) : Except LexError Answer → EStateM.Result LexError Cursor Answer
  | .ok answer => .ok answer c
  | .error e => .error e c

theorem step_of_stays {query : Query} (h : query.moves = false) (c : Cursor) :
    query.step c = stay c (query.ask c) := by
  cases query with
  | check what =>
    show what.step c = stay c (what.ask c)
    rw [Cursor.Check.step]
    cases what.ask c <;> rfl
  | next | nextThen => cases h
  | _ => rfl

theorem token_of_next {c c' : Cursor} {token : Token} (h : Cursor.next c = .ok token c') :
    token = c'.token := by
  rw [Cursor.next] at h
  split at h <;> cases h <;> rfl

theorem step_of_moves {query : Query} (h : query.moves = true) (c : Cursor) :
    query.step c = match Cursor.next c with
      | .ok _ c' => stay c' (query.ask c')
      | .error e c' => .error e c' := by
  cases query with
  | next =>
    show EStateM.bind Cursor.next _ c = _
    rw [EStateM.bind]
    cases hnext : Cursor.next c with
    | ok token c' =>
      rw [token_of_next hnext]
      rfl
    | error e c' => rfl
  | nextThen what =>
    show EStateM.bind Cursor.next _ c = _
    rw [EStateM.bind]
    cases Cursor.next c with
    | ok token c' => exact @step_of_stays (.check what) rfl c'
    | error e c' => rfl
  | _ => cases h

/-- Queries look at the current token only. -/
theorem ask_congr {c c' : Cursor} (h : c.current = c'.current) (query : Query) :
    query.ask c = query.ask c' := by
  obtain ⟨passed, current, ahead⟩ := c
  obtain ⟨passed', current', ahead'⟩ := c'
  obtain rfl : current = current' := h
  cases query with
  | check what | nextThen what => cases what <;> rfl
  | _ => rfl

theorem ask_view (lexer : Lexer) (query : Query) :
    query.ask lexer.view = query.ask lexer.cursor := ask_congr rfl query

/-- A lexer answers a query as its cursor does. -/
theorem cursor_step (h : lexer.Valid) (query : Query) :
    query.step lexer.cursor = match lexer.step query with
      | (.ok answer, lexer') => .ok answer lexer'.cursor
      | (.error e, lexer') => .error e lexer'.cursor := by
  rw [step]
  cases hmoves : query.moves with
  | false =>
    rw [step_of_stays hmoves, if_neg Bool.false_ne_true, ask_view]
    cases query.ask lexer.cursor <;> rfl
  | true =>
    have hnext := nextSpec h
    rw [step_of_moves hmoves, if_pos rfl]
    generalize lexer.next = moved at hnext ⊢
    obtain ⟨result, lexer'⟩ := moved
    cases result with
    | error e => rw [hnext.cursor_error h]
    | ok =>
      rw [hnext.cursor_ok h]
      dsimp only
      rw [ask_view]
      cases query.ask lexer'.cursor <;> rfl

/-- Only moving changes a lexer. -/
theorem step_snd (lexer : Lexer) (query : Query) :
    (lexer.step query).2 = if query.moves then lexer.next.2 else lexer := by
  rw [step]
  cases query.moves with
  | false => rfl
  | true =>
    rw [if_pos rfl, if_pos rfl]
    obtain ⟨result, lexer'⟩ := lexer.next
    cases result <;> rfl

theorem valid_step (h : lexer.Valid) (query : Query) : (lexer.step query).2.Valid := by
  rw [step_snd]
  cases query.moves with
  | false => exact h
  | true =>
    have hspec : lexer.NextSpec (lexer.next.1, lexer.next.2) := nextSpec h
    exact hspec.valid h

theorem valid_after (h : lexer.Valid) (queries : List Query) :
    (lexer.after queries).Valid := by
  induction queries generalizing lexer with
  | nil => exact h
  | cons query queries ih => exact ih (valid_step h query)

/-- A lexer answers any queries as its cursor does. -/
theorem cursor_answers (h : lexer.Valid) (queries : List Query) :
    (lexer.answers queries).map (fun result => (result.1, result.2.cursor)) =
      lexer.cursor.answers queries := by
  induction queries generalizing lexer with
  | nil => rfl
  | cons query queries ih =>
    have hstep := cursor_step h query
    have hrest := ih (valid_step h query)
    rw [answers, List.map_cons, hrest, Cursor.answers]
    generalize lexer.step query = moved at hstep ⊢
    obtain ⟨result, lexer'⟩ := moved
    cases result <;> rw [hstep]

/-! ## The first token -/

theorem ofSource_spec (source : Source) :
    (unopened source).FillSpec source.physicalLines (ofSource source) :=
  fillSpec (Source.chopped_cut source.bytes) (unopened source)

theorem valid_ofSource {source : Source} {first : Lexer}
    (h : ofSource source = (.ok (), first)) : first.Valid := by
  have hfill := ofSource_spec source
  rw [h] at hfill
  cases hfill with
  | filled h =>
    have hadded := List.length_pos_iff.mpr h.nonempty
    exact ⟨by rwa [h.pos, h.buffer], h.chopped⟩

/-- A lexer begins where the cursor of the source does. -/
theorem cursor_ofSource {source : Source} {first : Lexer}
    (h : ofSource source = (.ok (), first)) :
    Cursor.ofSource source = .ok first.cursor := by
  have hfill := ofSource_spec source
  rw [h] at hfill
  cases hfill with
  | filled h =>
    obtain ⟨lexeme, added, rfl⟩ := List.exists_cons_of_ne_nil h.nonempty
    have hstream : source.readings = (lexeme :: added).map .token ++ first.remaining :=
      h.stream
    rw [Cursor.ofSource, hstream, cursor_of_split h.buffer h.pos]
    rfl

/-- Where a lexer cannot begin, neither can the cursor. -/
theorem cursor_ofSource_error {source : Source}
    (h : ofSource source = (.error e, lexer)) :
    Cursor.ofSource source = .error e := by
  have hfill := ofSource_spec source
  rw [h] at hfill
  cases hfill with
  | blocked h =>
    have hstream : source.readings =
      .fault e :: Reading.ofLines lexer.depth lexer.count lexer.unread := h.stream
    rw [Cursor.ofSource, hstream]
    rfl

end

end Lexer

end Mint
