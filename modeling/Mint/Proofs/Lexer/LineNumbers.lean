import Mint.Proofs.Lexer.Reference

/-!
# The numbers of lines

The lexer records a line number with every token and with every error. Which physical
line a token belongs to is told by the reference stream (`Source.lineOf`), and a bad
line has its place. The number that is recorded is the number of the physical line,
counted from 1, less the lines before it that are not UTF-8: such a line is reported
with its number, and then the next line gets the same (`Source.numberOf`). Numbers are
therefore those of the physical lines up to the first line that is not UTF-8, itself
included, and of none behind it (`Source.numberOf_eq_iff`).
-/

namespace Mint

namespace Source

/-! ## Lines that count -/

/-- Whether a physical line is UTF-8. -/
def isText (bytes : List UInt8) : Bool := (decode? bytes).isSome

/-- How many of the first `n` lines are UTF-8. -/
def textLines (lines : List (List UInt8)) (n : Nat) : Nat := (lines.take n).countP isText

/-- Whether the last line lacks its line feed and can be read. -/
def endsOpen (lines : List (List UInt8)) : Bool :=
  lines.getLast?.any fun bytes => !isTerminated bytes && (line? bytes).isSome

/-- How many lines stand before the one that the end of the input belongs to: the last
line if that is open, else one behind the last. -/
def endPlace (lines : List (List UInt8)) : Nat :=
  if endsOpen lines then lines.length - 1 else lines.length

/-- The physical line that a token of the reference belongs to, counted from 1. -/
def lineOf (source : Source) (held : Held) : Nat :=
  if held.token = Token.eof then endPlace source.physicalLines + 1 else held.place + 1

/-- The number that physical line `line` goes by. Lines before it that are not UTF-8 do
not count. -/
def numberOf (source : Source) (line : Nat) : Nat :=
  textLines source.physicalLines (line - 1) + 1

/-- The reference with the numbers that are recorded for its tokens. -/
def numbered (source : Source) : List Lexeme :=
  source.reference.map fun held => ⟨held.token, source.numberOf (source.lineOf held)⟩

/-- A line goes by its own number if and only if all lines before it are UTF-8. -/
theorem numberOf_eq_iff {source : Source} {line : Nat} (hpos : 0 < line)
    (hle : line ≤ source.physicalLines.length + 1) :
    source.numberOf line = line ↔
    ∀ bytes ∈ source.physicalLines.take (line - 1), (decode? bytes).isSome = true := by
  have hlength : (source.physicalLines.take (line - 1)).length = line - 1 := by
    rw [List.length_take]
    omega
  have hall :=
    List.countP_eq_length (p := isText) (l := source.physicalLines.take (line - 1))
  rw [hlength] at hall
  rw [numberOf, textLines]
  exact ⟨fun h => hall.mp (by omega), fun h => by rw [hall.mpr h]; omega⟩

theorem textLines_cons (bytes : List UInt8) (rest : List (List UInt8)) (n : Nat) :
    textLines (bytes :: rest) (n + 1) =
      textLines rest n + if isText bytes then 1 else 0 := by
  rw [textLines, List.take_succ_cons, List.countP_cons, textLines]

/-- The count of lines after a line. -/
def countAfter (count : Nat) (bytes : List UInt8) : Nat :=
  if isText bytes then count + 1 else count

theorem count_cons (count : Nat) (bytes : List UInt8) (rest : List (List UInt8))
    (n : Nat) :
    count + textLines (bytes :: rest) (n + 1) =
      countAfter count bytes + textLines rest n := by
  rw [textLines_cons, countAfter]
  split <;> omega

/-! ## Numbers of bad lines -/

theorem line_of_bad {place count : Nat} {lines : List (List UInt8)} :
    ∀ b ∈ bad place count lines,
      b.error.line = count + textLines lines (b.place - place) + 1 := by
  induction lines generalizing place count with
  | nil => exact fun _ hmem => absurd hmem List.not_mem_nil
  | cons bytes rest ih =>
    refine List.forall_mem_append.mpr ⟨?_, ?_⟩
    · intro b hb
      obtain ⟨_, -, rfl⟩ := Option.map_eq_some_iff.mp (Option.mem_toList.mp hb)
      simp [textLines]
    · intro b hb
      have hplace : place + 1 ≤ b.place := place_le_of_bad b hb
      rw [ih b hb, show b.place - place = b.place - (place + 1) + 1 by omega, count_cons]
      rfl

theorem line_of_badLines {source : Source} :
    ∀ b ∈ source.badLines, b.error.line = source.numberOf (b.place + 1) := by
  intro b hb
  rw [line_of_bad b hb, numberOf, Nat.zero_add, Nat.sub_zero, Nat.add_sub_cancel]

/-! ## Numbers of tokens -/

/-- Tokens with their numbers, where lines are counted from `place` on and `count` of
them have been counted before. -/
def numberFrom (place count : Nat) (lines : List (List UInt8)) (tokens : List Held) :
    List Lexeme :=
  tokens.map fun held => ⟨held.token, count + textLines lines (held.place - place) + 1⟩

/-- The same for the end of the input. -/
def endNumber (count : Nat) (lines : List (List UInt8)) : Lexeme :=
  ⟨Token.eof, count + textLines lines (endPlace lines) + 1⟩

theorem numberFrom_cons {place : Nat} {bytes : List UInt8} {rest : List (List UInt8)}
    {tokens : List Held} (h : ∀ held ∈ tokens, place + 1 ≤ held.place) (count : Nat) :
    numberFrom place count (bytes :: rest) tokens =
      numberFrom (place + 1) (countAfter count bytes) rest tokens := by
  refine List.map_congr_left fun held hheld => ?_
  have hplace := h held hheld
  rw [show held.place - place = held.place - (place + 1) + 1 by omega, count_cons]

/-- The tokens of the first line have its number. -/
theorem numberFrom_line (place count : Nat) (lines : List (List UInt8))
    (tokens : List Token) :
    numberFrom place count lines (tokens.map (⟨·, place⟩)) =
      tokens.map (⟨·, count + 1⟩) := by
  rw [numberFrom, List.map_map]
  refine List.map_congr_left fun token _ => ?_
  simp [textLines]

theorem endPlace_cons {bytes : List UInt8} {rest : List (List UInt8)}
    (h : rest ≠ [] ∨ endsOpen [bytes] = false) :
    endPlace (bytes :: rest) = endPlace rest + 1 := by
  cases rest with
  | nil =>
    rw [endPlace, h.resolve_left fun hne => hne rfl]
    rfl
  | cons next rest =>
    have hopen : endsOpen (bytes :: next :: rest) = endsOpen (next :: rest) := by
      rw [endsOpen, List.getLast?_cons_cons, endsOpen]
    rw [endPlace, endPlace, hopen]
    split
    · simp
    · rfl

theorem endNumber_cons {bytes : List UInt8} {rest : List (List UInt8)}
    (h : rest ≠ [] ∨ endsOpen [bytes] = false) (count : Nat) :
    endNumber count (bytes :: rest) = endNumber (countAfter count bytes) rest := by
  rw [endNumber, endPlace_cons h, count_cons, endNumber]

end Source

namespace Reading

open Source (held goodLines numberFrom endNumber countAfter endsOpen)

/-- The token of a reading that is one. -/
def lexeme? : Reading → Option Lexeme
  | .token lexeme => some lexeme
  | .fault _ => none

/-- The tokens of a stream. -/
def lexemes (stream : List Reading) : List Lexeme := stream.filterMap lexeme?

theorem lexemes_append (stream stream' : List Reading) :
    lexemes (stream ++ stream') = lexemes stream ++ lexemes stream' :=
  List.filterMap_append

theorem lexemes_map (added : List Lexeme) : lexemes (added.map .token) = added := by
  rw [lexemes, List.filterMap_map]
  exact List.filterMap_some

theorem lexemes_place (number : Nat) (tokens : List Token) :
    lexemes (place number tokens) = tokens.map (⟨·, number⟩) := by
  have hmap : place number tokens = (tokens.map (⟨·, number⟩)).map Reading.token := by
    rw [List.map_map]
    rfl
  rw [hmap, lexemes_map]

/-- The tokens of lines and the end of the input behind them, all with their numbers. -/
def Numbers (lines : List (List UInt8)) : Prop :=
  ∀ place depth count, lexemes (ofLines depth count lines) =
    numberFrom place count lines (held depth (goodLines place lines)) ++
    [endNumber count lines]

/-- A line before the others that adds no tokens. -/
theorem numbers_silent {bytes : List UInt8} {rest : List (List UInt8)}
    (hcontent : Source.content? bytes = none)
    (hopen : rest ≠ [] ∨ endsOpen [bytes] = false) (ih : Numbers rest)
    (place depth count : Nat) :
    numberFrom place count (bytes :: rest)
      (held depth (goodLines place (bytes :: rest))) ++
      [endNumber count (bytes :: rest)] =
        lexemes (ofLines depth (countAfter count bytes) rest) := by
  rw [Source.goodLines_cons, hcontent, Option.map_none, Option.toList_none,
    List.nil_append,
    Source.numberFrom_cons (Source.place_le_of_held Source.place_le_of_goodLines),
    Source.endNumber_cons hopen, ih (place + 1)]

/-- A line before the others that adds tokens. -/
theorem numbers_content {bytes : List UInt8} {rest : List (List UInt8)} {line : Line}
    (hcontent : Source.content? bytes = some line) (place depth count : Nat) :
    numberFrom place count (bytes :: rest)
      (held depth (goodLines place (bytes :: rest))) =
      (Source.tokensOf depth line).map (⟨·, count + 1⟩) ++
        numberFrom (place + 1) (countAfter count bytes) rest
          (held line.depth (goodLines (place + 1) rest)) := by
  rw [Source.goodLines_cons, hcontent,
    ← Source.numberFrom_cons (Source.place_le_of_held Source.place_le_of_goodLines),
    ← Source.numberFrom_line place count (bytes :: rest)]
  exact List.map_append

theorem numbers_cons {bytes : List UInt8} {rest : List (List UInt8)}
    (hmarked : Source.Marked bytes)
    (hlast : Source.isTerminated bytes = false → rest = []) (ih : Numbers rest) :
    Numbers (bytes :: rest) := by
  intro place depth count
  rw [ofLines]
  cases htext : Source.decode? bytes with
  | none =>
    have hcount : countAfter count bytes = count := by
      simp [countAfter, Source.isText, htext]
    have hline : Source.line? bytes = none := by
      rw [Source.line?, htext, Option.bind_none]
    have hopen : endsOpen [bytes] = false := by simp [endsOpen, hline]
    rw [numbers_silent (by rw [Source.content?, hline]; rfl) (.inr hopen) ih, hcount]
    rfl
  | some text =>
    have hcount : countAfter count bytes = count + 1 := by
      simp [countAfter, Source.isText, htext]
    cases hofText : Line.ofText text with
    | error cause =>
      have hline : Source.line? bytes =
        none := by rw [Source.line?, htext, Option.bind_some, hofText]; rfl
      have hopen : endsOpen [bytes] = false := by simp [endsOpen, hline]
      rw [numbers_silent (by rw [Source.content?, hline]; rfl) (.inr hopen) ih, hcount]
      simp only [hofText]
      rfl
    | ok line =>
      have hline : Source.line? bytes =
        some line := by rw [Source.line?, htext, Option.bind_some, hofText]; rfl
      have hopen : endsOpen [bytes] = !Source.isTerminated bytes := by
        simp [endsOpen, hline]
      -- behind an open line there is the end of the input, on the same line
      have hend : Source.isTerminated bytes = false →
          endNumber count (bytes :: rest) = ⟨Token.eof, count + 1⟩ := by
        intro hterminated
        rw [hterminated] at hopen
        rw [hlast hterminated, endNumber, Source.endPlace, hopen]
        rfl
      simp only [hofText]
      cases hblank : line.isBlank with
      | true =>
        have hcontent : Source.content? bytes = none := by
          rw [Source.content?, hline, Option.filter_some, hblank]
          rfl
        cases hterminated : Source.isTerminated bytes with
        | true =>
          rw [hterminated] at hopen
          rw [numbers_silent hcontent (.inr hopen) ih, hcount]
          rfl
        | false =>
          rw [hend hterminated, hlast hterminated, Source.goodLines_cons, hcontent]
          rfl
      | false =>
        have hcontent : Source.content? bytes = some line := by
          rw [Source.content?, hline, Option.filter_some, hblank]
          rfl
        rw [numbers_content hcontent,
          CodeLine.lineTokens_eq depth (hmarked htext hofText), ← Source.tokensOf_eq]
        cases hterminated : Source.isTerminated bytes with
        | true =>
          rw [hterminated] at hopen
          rw [Source.endNumber_cons (.inr hopen), List.append_assoc,
            ← ih (place + 1) line.depth, hcount, ← lexemes_place, ← lexemes_append]
          rfl
        | false =>
          rw [hend hterminated, hlast hterminated, List.append_assoc]
          simp only [Bool.false_eq_true, if_false, lexemes_place, List.map_append]
          rfl

theorem numbers_ofLines {lines : List (List UInt8)} (h : Source.Chopped lines) :
    Numbers lines := by
  refine Source.Chopped.byLine ?_ ?_ h
  · exact fun place depth count => rfl
  · exact fun hmarked hlast _ ih => numbers_cons hmarked hlast ih

end Reading

namespace Source

theorem eof_not_mem_tokensOf (depth : Nat) (line : Line) :
    Token.eof ∉ tokensOf depth line := by
  simp [tokensOf, Line.plain, Token.isLayout]

theorem token_ne_eof_of_held {depth : Nat} {lines : List (Line × Nat)} :
    ∀ token ∈ held depth lines, token.token ≠ Token.eof := by
  induction lines generalizing depth with
  | nil => exact fun _ hmem => absurd hmem List.not_mem_nil
  | cons line lines ih =>
    refine List.forall_mem_append.mpr ⟨fun token htoken => ?_, ih⟩
    obtain ⟨token, hmem, rfl⟩ := List.mem_map.mp htoken
    rintro rfl
    exact eof_not_mem_tokensOf depth line.1 hmem

/-- The tokens of the stream of a source are those of the reference with their numbers. -/
theorem lexemes_readings (source : Source) :
    Reading.lexemes source.readings = source.numbered := by
  have hnumbers := Reading.numbers_ofLines (chopped_cut source.bytes) 0 0 0
  have hheld :
      numberFrom 0 0 source.physicalLines (held 0 (goodLines 0 source.physicalLines)) =
      (held 0 (goodLines 0 source.physicalLines)).map
        fun held => ⟨held.token, source.numberOf (source.lineOf held)⟩ := by
    refine List.map_congr_left fun token htoken => ?_
    rw [lineOf, if_neg (token_ne_eof_of_held token htoken), numberOf, Nat.add_sub_cancel,
      Nat.zero_add, Nat.sub_zero]
  have hend : endNumber 0 source.physicalLines =
      ⟨Token.eof,
        source.numberOf (source.lineOf ⟨Token.eof, source.physicalLines.length⟩)⟩ := by
    rw [endNumber, lineOf, if_pos rfl, numberOf, Nat.add_sub_cancel, Nat.zero_add]
  rw [numbered, reference, List.map_append, ← hheld, List.map_singleton, ← hend]
  exact hnumbers

end Source

/-! ## Numbers that a lexer records -/

namespace Lexer

open Cursor (Query)

/-- What the lexer has recorded and what it has yet to read make up the tokens of the
source. -/
def Records (source : Source) (lexer : Lexer) : Prop :=
  lexer.buffer ++ Reading.lexemes lexer.remaining = source.numbered

variable {source : Source} {lexer lexer' : Lexer}

theorem Filled.records {added : List Lexeme} {lines : List (List UInt8)}
    (h : lexer.Filled lines added lexer') (hrest : lexer.buffer ++
      Reading.lexemes (Reading.ofLines lexer.depth lexer.count lines) = source.numbered) :
    lexer'.Records source := by
  rw [h.stream, Reading.lexemes_append, Reading.lexemes_map, ← List.append_assoc,
    ← h.buffer] at hrest
  exact hrest

theorem records_ofSource (h : ofSource source = (.ok (), lexer)) :
    lexer.Records source := by
  have hfill := ofSource_spec source
  rw [h] at hfill
  cases hfill with
  | filled hfilled => exact hfilled.records source.lexemes_readings

/-- Moving goes on along the tokens of the source and passes over errors. -/
theorem Records.next (h : lexer.Records source) (hvalid : lexer.Valid) :
    lexer.next.2.Records source := by
  have hspec := nextSpec hvalid
  generalize lexer.next = moved at hspec
  cases hspec with
  | within => exact h
  | finished => exact h
  | filled _ hopen hfilled =>
    rw [Records, remaining, hopen, if_neg Bool.false_ne_true] at h
    exact hfilled.records h
  | @blocked e lexer' _ hopen hblocked =>
    have hopen' : lexer'.isFinished = false := by rwa [isFinished, hblocked.buffer]
    rw [Records, remaining, hopen, if_neg Bool.false_ne_true, hblocked.stream] at h
    rw [Records, remaining, hopen', if_neg Bool.false_ne_true, hblocked.buffer]
    exact h

theorem Records.after (h : lexer.Records source) (hvalid : lexer.Valid)
    (queries : List Query) :
    (lexer.after queries).Records source := by
  induction queries generalizing lexer with
  | nil => exact h
  | cons query queries ih =>
    refine ih ?_ (valid_step hvalid query)
    rw [step_snd]
    split
    · exact h.next hvalid
    · exact h

/-- The place in the buffer is the number of moves, up to the last token. -/
theorem OnWay.pos_eq {k : Nat} {reported : List LexError}
    (h : lexer.OnWay source k reported) :
    lexer.pos = min k (source.reference.length - 1) := by
  obtain ⟨done, todo, seen, left, hall, -, -, halong⟩ := h.along
  have hinside := h.valid.inside
  rw [← hall, ← halong.place, cursor, List.length_reverse, List.length_take]
  omega

theorem OnWay.mem_badLines {k : Nat} {reported : List LexError}
    (h : lexer.OnWay source k reported) :
    ∀ e ∈ reported, ∃ b ∈ source.badLines, b.error = e := by
  obtain ⟨done, todo, seen, left, -, hbad, rfl, -⟩ := h.along
  intro e he
  obtain ⟨b, hb, rfl⟩ := List.mem_map.mp he
  exact ⟨b, hbad ▸ List.mem_append_left left hb, rfl⟩

/-- Where a lexer cannot begin, it is for a bad line. -/
theorem mem_badLines_of_ofSource {e : LexError}
    (h : ofSource source = (.error e, lexer)) :
    ∃ b ∈ source.badLines, b.error = e := by
  have hmerged : Merged source.reference source.badLines source.readings := by
    rw [← source.heldToEnd_zero]
    exact Source.merged_ofLines (Source.chopped_cut source.bytes) 0 0 0
  have hfill := ofSource_spec source
  rw [h] at hfill
  cases hfill with
  | blocked hblocked =>
    have hstream : source.readings =
      .fault e :: Reading.ofLines lexer.depth lexer.count lexer.unread := hblocked.stream
    rw [hstream] at hmerged
    generalize source.reference = hs at hmerged
    generalize source.badLines = bs at hmerged
    cases hmerged with
    | fault => exact ⟨_, List.mem_cons_self, rfl⟩

/-- Whatever a lexer is asked, and also behind errors, it records for every token the
number of the physical line that the token belongs to, and the error of a bad line has
the number of that line. Numbers pass over lines that are not UTF-8, so they are those
of the physical lines as long as all lines before are UTF-8, and only then. The cursor
of the source answers with the same numbers. -/
theorem line_numbers_count_text_lines (source : Source) :
    (∀ e, (ofSource source).1 = .error e → ∃ b ∈ source.badLines, b.error = e) ∧
    ((ofSource source).1 = .ok () → ∀ queries : List Query,
      ((ofSource source).2.after queries).buffer <+: source.numbered ∧
      source.numbered[min (advances ((ofSource source).2.moves queries))
        (source.reference.length - 1)]? =
        some ((ofSource source).2.after queries).current ∧
      (∀ e ∈ errors ((ofSource source).2.moves queries),
        ∃ b ∈ source.badLines, b.error = e) ∧
      Cursor.ofSource source = .ok (ofSource source).2.cursor ∧
      (ofSource source).2.cursor.answers queries =
        ((ofSource source).2.answers queries).map fun result =>
          (result.1, result.2.cursor)) ∧
    (∀ b ∈ source.badLines, b.error.line = source.numberOf (b.place + 1)) ∧
    ∀ line,
      0 < line → line ≤ source.physicalLines.length + 1 → (source.numberOf line = line ↔
      ∀ bytes ∈ source.physicalLines.take (line - 1),
        (Source.decode? bytes).isSome = true) := by
  refine ⟨fun e he => ?_, fun hopen queries => ?_, Source.line_of_badLines,
    fun line hpos hle => ?_⟩
  · exact mem_badLines_of_ofSource (Prod.ext he rfl)
  · have hfirst : ofSource source = (.ok (), (ofSource source).2) := Prod.ext hopen rfl
    have hrecords := (records_ofSource hfirst).after (valid_ofSource hfirst) queries
    have hway := (onWay_ofSource hopen).after queries
    rw [Nat.zero_add, List.nil_append] at hway
    have hinside := hway.valid.inside
    refine ⟨⟨_, hrecords⟩, ?_, hway.mem_badLines, cursor_ofSource hfirst,
      (cursor_answers (valid_ofSource hfirst) queries).symm⟩
    rw [← hway.pos_eq, ← hrecords, List.getElem?_append_left hinside, current,
      List.getD_eq_getElem?_getD, List.getElem?_eq_getElem hinside, Option.getD_some]
  · exact Source.numberOf_eq_iff hpos hle

/-- A line that is not UTF-8 between two lines of one name each. -/
def unreadableLine : Source :=
  ⟨(Source.ofString "a\n").bytes ++ [255, Source.lineFeed] ++
    (Source.ofString "b\n").bytes⟩

/-- The lexer opens `unreadableLine`. -/
theorem isOk_unreadableLine : (ofSource unreadableLine).1 = .ok () := by
  have hok : (ofSource unreadableLine).1.isOk = true := by decide +kernel
  cases hresult : (ofSource unreadableLine).1 with
  | ok => rfl
  | error e =>
    rw [hresult] at hok
    cases hok

theorem line_numbers_count_text_lines_unreadableLine :
    (ofSource unreadableLine).1 = .ok () ∧
    advances ((ofSource unreadableLine).2.moves [.next, .next, .next]) = 2 ∧
    errors ((ofSource unreadableLine).2.moves [.next, .next, .next]) =
      [⟨2, .unreadable .notUtf8⟩] ∧
    unreadableLine.numbered[2]? =
      some ((ofSource unreadableLine).2.after [.next, .next, .next]).current ∧
    unreadableLine.numberOf 2 = 2 ∧ ¬unreadableLine.numberOf 3 = 3 := by
  obtain ⟨-, hrun, -, hexact⟩ := line_numbers_count_text_lines unreadableLine
  have hadvances : advances ((ofSource unreadableLine).2.moves [.next, .next, .next]) =
    2 := by decide +kernel
  have herrors : errors ((ofSource unreadableLine).2.moves [.next, .next, .next]) =
      [⟨2, .unreadable .notUtf8⟩] := by
    decide +kernel
  have hlast : unreadableLine.reference.length - 1 = 4 := by decide +kernel
  obtain ⟨-, hcurrent, -⟩ := hrun isOk_unreadableLine [.next, .next, .next]
  rw [hadvances, hlast] at hcurrent
  refine ⟨isOk_unreadableLine, hadvances, herrors, hcurrent, ?_, ?_⟩
  · exact (hexact 2 (by decide) (by decide +kernel)).mpr (by decide +kernel)
  · rw [hexact 3 (by decide) (by decide +kernel)]
    decide +kernel

/-- Behind a line that is not UTF-8 the recorded number is not that of the physical
line: the token of the third line of `unreadableLine` is recorded on line 2. -/
theorem line_numbers_fall_behind :
    (ofSource unreadableLine).1 = .ok () ∧
    ((ofSource unreadableLine).2.after [.next, .next, .next]).current = ⟨.id "b", 2⟩ ∧
    unreadableLine.reference[2]? = some ⟨.id "b", 2⟩ ∧
    unreadableLine.lineOf ⟨.id "b", 2⟩ = 3 ∧
    ¬((ofSource unreadableLine).2.after [.next, .next, .next]).buffer <+:
      unreadableLine.reference.map fun held =>
        ⟨held.token, unreadableLine.lineOf held⟩ := by
  refine ⟨isOk_unreadableLine, ?_, ?_, ?_, ?_⟩ <;> decide +kernel

end Lexer

end Mint
