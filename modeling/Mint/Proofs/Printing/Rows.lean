import Mint.Proofs.Spelling
import Mint.Proofs.Parse

/-!
# The text of rows

Rows that are written one after the other are the lines of the text
(`Program.lines_of_rows`): every row ends in the only line break of its text, so that
cutting the bytes gives the rows back, each of them is UTF-8, and the tokens on it are
read as they were written. The same goes for a single line that is not written token by
token (`Program.lines_of_line`).
-/

namespace Mint

/-- The row can be written: it has tokens, and a line can hold each of them. -/
structure Row.Writable (row : Row) : Prop where
  nonempty : row.tokens ≠ []
  scannable : ∀ token ∈ row.tokens, token.isScannable = true

/-! ## Line breaks -/

theorem Token.newline_not_mem_spelling {token : Token} (h : token.isScannable = true) :
    '\n' ∉ token.spelling := by
  cases token with
  | number value =>
    intro hmem
    rw [Token.spelling, Line.toList_numberText (of_decide_eq_true h)] at hmem
    exact absurd (Nat.isDigit_of_mem_toDigits (by decide) (by decide) hmem) (by decide)
  | id name =>
    intro hmem
    rw [Token.spelling] at hmem
    rw [Token.isScannable] at h
    cases hletters : name.toList with
    | nil =>
      rw [hletters] at hmem
      cases hmem
    | cons c letters =>
      rw [hletters, Token.isName, Bool.and_eq_true, Bool.and_eq_true,
        List.all_eq_true] at h
      rw [hletters] at hmem
      rcases List.mem_cons.mp hmem with rfl | hmem
      · cases h.1.1
      · cases h.1.2 '\n' hmem
  | char c =>
    intro hmem
    obtain rfl := List.mem_singleton.mp hmem
    cases h
  | string text =>
    simp only [Token.spelling, Token.literalText, List.mem_append, List.mem_cons,
      List.mem_flatMap, List.not_mem_nil, or_false, not_or, not_exists, not_and]
    refine ⟨⟨by decide, ?_⟩, by decide⟩
    intro c _
    rw [Token.literalChar]
    split
    · decide
    · split
      · decide
      · next hbreak => simpa using Ne.symm hbreak
  | keyword word => cases word <;> decide
  | relation rel => cases rel <;> decide
  | layout mark => cases h

theorem newline_not_mem_spellTokens {tokens : List Token}
    (h : ∀ token ∈ tokens, token.isScannable = true) :
    '\n' ∉ spellTokens tokens := by
  induction tokens with
  | nil => exact List.not_mem_nil
  | cons token tokens ih =>
    obtain ⟨htoken, htokens⟩ := List.forall_mem_cons.mp h
    cases tokens with
    | nil => exact Token.newline_not_mem_spelling htoken
    | cons second tokens =>
      simp only [spellTokens, List.mem_append, List.mem_cons, not_or]
      exact ⟨Token.newline_not_mem_spelling htoken, by decide, ih htokens⟩

/-! ## Bytes -/

namespace Source

/-- The bytes of a text. -/
def encode (text : List Char) : List UInt8 := text.flatMap String.utf8EncodeChar

theorem bytes_ofString (text : List Char) :
    (ofString (String.ofList text)).bytes = encode text := by
  rw [ofString, ofByteArray, toList_toUTF8, String.toList_ofList, encode]

theorem decode?_encode (text : List Char) : decode? (encode text) = some text := by
  have hbytes : (⟨(encode text).toArray⟩ : ByteArray) = (String.ofList text).toUTF8 := by
    rw [← bytes_ofString]
    rfl
  rw [decode?, hbytes, String.fromUTF8?, String.toUTF8_eq_toByteArray,
    dif_pos (String.ofList text).isValidUTF8]
  exact congrArg some (String.toList_ofList ..)

theorem encode_concat_newline (text : List Char) :
    encode (text ++ ['\n']) = encode text ++ [lineFeed] := by
  rw [encode, List.flatMap_append, List.flatMap_singleton, encodeChar_newline]
  rfl

theorem lineFeed_not_mem_encode {text : List Char} (h : '\n' ∉ text) :
    lineFeed ∉ encode text := by
  intro hmem
  obtain ⟨c, hc, hfeed⟩ := List.mem_flatMap.mp hmem
  obtain rfl := eq_newline_of_lineFeed_mem hfeed
  exact h hc

end Source

/-! ## Rows -/

namespace Row

/-- The bytes of a row. -/
def bytes (row : Row) : List UInt8 := Source.encode row.text

variable {row : Row}

theorem Writable.bytes_eq (h : row.Writable) :
    ∃ line, row.bytes = line ++ [Source.lineFeed] ∧ Source.lineFeed ∉ line := by
  refine ⟨Source.encode
    (List.replicate (Line.indentWidth * row.depth) ' ' ++ spellTokens row.tokens), ?_, ?_⟩
  · rw [Row.bytes, Row.text, spellLine, Source.encode_concat_newline]
  · refine Source.lineFeed_not_mem_encode fun hmem => ?_
    rcases List.mem_append.mp hmem with hspace | htoken
    · cases List.eq_of_mem_replicate hspace
    · exact newline_not_mem_spellTokens h.scannable htoken

theorem cut_rows {rows : List Row} (h : ∀ row ∈ rows, row.Writable) :
    Source.cut (rows.flatMap bytes) = rows.map bytes := by
  induction rows with
  | nil => rfl
  | cons row rows ih =>
    obtain ⟨hrow, hrows⟩ := List.forall_mem_cons.mp h
    obtain ⟨line, hbytes, hline⟩ := hrow.bytes_eq
    rw [List.flatMap_cons,
      Source.cut_append (.inr (by rw [hbytes, List.getLast?_concat])), ih hrows, hbytes,
      Source.cut_concat hline, List.map_cons, hbytes]
    rfl

/-- The row as it is read from the line after `count` others. -/
def codeLine (count : Nat) (row : Row) (h : row.Writable) : CodeLine where
  number := count + 1
  depth := row.depth
  tokens := row.tokens
  nonempty := h.nonempty
  plain := by
    intro token htoken
    have hscannable := h.scannable token htoken
    cases token with
    | layout mark => cases hscannable
    | _ => rfl

theorem plain_eq (h : row.Writable) :
    (⟨row.depth, row.tokens ++ [Token.newline]⟩ : Line).plain = row.tokens := by
  have hplain := (codeLine 0 row h).plain
  rw [Line.plain, List.filter_append, List.filter_eq_self.mpr]
  · exact List.append_nil _
  · intro token htoken
    rw [hplain token htoken]
    rfl

theorem ofBytes_bytes (h : row.Writable) (count : Nat) :
    CodeLine.ofBytes count row.bytes = .ok (some (codeLine count row h)) := by
  rw [CodeLine.ofBytes, Row.bytes, Source.decode?_encode]
  simp only [Row.text, Line.ofText_spellLine row.depth h.scannable, CodeLine.ofLine?,
    plain_eq h]
  rw [dif_neg h.nonempty]
  rfl

theorem leading_rows {rows : List Row} (h : ∀ row ∈ rows, row.Writable) (count : Nat) :
    ∃ lines, CodeLine.leading count (rows.map bytes) = (lines, none) ∧
      lines.map CodeLine.row = rows := by
  induction rows generalizing count with
  | nil => exact ⟨[], rfl, rfl⟩
  | cons row rows ih =>
    obtain ⟨hrow, hrows⟩ := List.forall_mem_cons.mp h
    obtain ⟨lines, hlines, hmap⟩ := ih hrows (count + 1)
    refine ⟨codeLine count row hrow :: lines, ?_, ?_⟩
    · rw [List.map_cons, CodeLine.leading_of_ok (ofBytes_bytes hrow count), hlines]
      rfl
    · rw [List.map_cons, hmap]
      rfl

end Row

/-- Rows that are written are the lines of what is written. -/
theorem Program.lines_of_rows {rows : List Row} (h : ∀ row ∈ rows, row.Writable) :
    ∃ lines, Lines (.ofString (String.ofList (rows.flatMap Row.text))) lines ∧
      lines.map CodeLine.row = rows := by
  have hbytes : Source.encode (rows.flatMap Row.text) = rows.flatMap Row.bytes :=
    List.flatMap_assoc
  obtain ⟨lines, hlines, hmap⟩ := Row.leading_rows h 0
  refine ⟨lines, ?_, hmap⟩
  rw [Lines, Source.physicalLines, Source.bytes_ofString, hbytes, Row.cut_rows h, hlines]

/-- A text of one line, if it can be read and has tokens. -/
theorem Program.lines_of_line {text : List Char} {line : Line} (hbreak : '\n' ∉ text)
    (hline : Line.ofText (text ++ ['\n']) = .ok line) (hne : line.plain ≠ []) :
    ∃ found, Lines (.ofString (String.ofList (text ++ ['\n']))) [found] ∧
      found.row = ⟨line.depth, line.plain⟩ := by
  have hread : CodeLine.ofBytes 0 (Source.encode text ++ [Source.lineFeed]) =
      .ok (CodeLine.ofLine? 1 line) := by
    rw [← Source.encode_concat_newline, CodeLine.ofBytes, Source.decode?_encode]
    simp only [hline]
  have hfound : ∃ found,
      CodeLine.ofLine? 1 line = some found ∧ found.row = ⟨line.depth, line.plain⟩ := by
    rw [CodeLine.ofLine?, dif_neg hne]
    exact ⟨_, rfl, rfl⟩
  obtain ⟨found, hsome, hrow⟩ := hfound
  refine ⟨found, ?_, hrow⟩
  rw [hsome] at hread
  rw [Lines, Source.physicalLines, Source.bytes_ofString, Source.encode_concat_newline,
    Source.cut_concat (Source.lineFeed_not_mem_encode hbreak),
    CodeLine.leading_of_ok hread]
  rfl

end Mint
