import Mint.Proofs.Printing

/-!
# The tokens of a line

`Token.isScannable` says which tokens a line of source can hold. Each of them is read
back as it is written (`Line.lexeme_spelling`), and here is the converse: no line is
read as anything else. A number is the value of digits and has no sign, a name is not
reserved, and a string holds neither a backslash nor a carriage return, for the one is
taken with the character behind it and the other ends the line.
-/

namespace Mint

namespace Line

/-- No escape stands for a backslash or a carriage return. -/
theorem ne_of_resolveEscape? {e c : Char} (h : resolveEscape? e = some c) :
    c ≠ '\\' ∧ c ≠ '\r' := by
  unfold resolveEscape? at h
  split at h <;> cases h <;> decide

theorem ne_of_mem_stringLiteral {quote : Char} {text value : List Char} {taken : Nat}
    (h : stringLiteral quote text = .ok (value, taken)) :
    ∀ c ∈ value, c ≠ '\\' ∧ c ≠ '\r' := by
  fun_induction stringLiteral quote text generalizing value taken with
  | case1 => cases h
  | case2 =>
    cases h
    exact fun c hc => absurd hc List.not_mem_nil
  | case3 => cases h
  | case4 => cases h
  | case5 e rest c hc hne ih =>
    obtain ⟨⟨value', taken'⟩, hrest, heq⟩ := exists_of_map_eq_ok h
    cases heq
    exact List.forall_mem_cons.mpr ⟨ne_of_resolveEscape? hc, ih hrest⟩
  | case6 => cases h
  | case7 c rest hne hslash hbreak ih =>
    obtain ⟨⟨value', taken'⟩, hrest, heq⟩ := exists_of_map_eq_ok h
    cases heq
    exact List.forall_mem_cons.mpr ⟨⟨hslash, fun hc => hbreak (.inr hc)⟩, ih hrest⟩

/-- The bound of literals is that of the signed range, so no literal wraps around. -/
theorem intLiteral_nonneg {digits : List Char} {value : Int64}
    (h : intLiteral digits = .ok value) :
    0 ≤ value.toInt := by
  rw [intLiteral] at h
  split at h
  · next hlt =>
    cases h
    have hbound : literalBound = 2 ^ 63 := by decide
    rw [hbound] at hlt
    rw [Int64.toInt_ofNat_of_lt hlt]
    exact Int.natCast_nonneg _
  · cases h

theorem isScannable_word {c : Char} {letters : List Char} (hc : isNameStart c = true)
    (hletters : letters.all isNamePart = true) :
    (word (c :: letters)).isScannable = true := by
  rw [word]
  split
  · rfl
  · next hkeyword =>
    rw [Token.isScannable, String.toList_ofList, Token.isName, hc, hletters, hkeyword]
    rfl

theorem isScannable_symbol {c : Char} (hc : Token.isSymbol c = true) (rest : List Char) :
    (symbol c rest).1.isScannable = true := by
  unfold symbol
  split
  · rfl
  · exact hc

/-- What a character begins can stand in a line. -/
theorem isScannable_of_lexeme {c : Char} {rest : List Char} {token : Option Token}
    {taken : Nat} (hc : c ≠ '\n') (h : lexeme c rest = .ok (token, taken)) :
    ∀ t ∈ token, t.isScannable = true := by
  unfold lexeme at h
  split at h
  · cases h
    simp
  split at h
  · cases h
    simp
  split at h
  · obtain ⟨⟨text, n⟩, hliteral, heq⟩ := exists_of_map_eq_ok h
    cases heq
    rintro t ⟨⟩
    simpa [Token.isScannable] using ne_of_mem_stringLiteral hliteral
  split at h
  · obtain ⟨value, hvalue, heq⟩ := exists_of_map_eq_ok h
    cases heq
    rintro t ⟨⟩
    exact decide_eq_true (intLiteral_nonneg hvalue)
  split at h
  · next hstart =>
    cases h
    rintro t ⟨⟩
    exact isScannable_word hstart List.all_takeWhile
  · next hspace hcomment hquote hdigit hstart =>
    simp only [Except.ok.injEq, Prod.mk.injEq] at h
    obtain ⟨rfl, -⟩ := h
    rintro t ⟨⟩
    obtain ⟨hdouble, hsingle⟩ := not_or.mp hquote
    refine isScannable_symbol ?_ rest
    simp [Token.isSymbol, hspace, hc, hcomment, hdouble, hsingle, hdigit, hstart]

theorem isScannable_of_scan {skip : Nat} {text : List Char} {tokens : List Token}
    (h : scan skip text = .ok tokens) :
    ∀ t ∈ tokens, t.isLayout = false → t.isScannable = true := by
  induction text generalizing skip tokens with
  | nil =>
    cases skip <;> cases h <;> exact fun t ht => absurd ht List.not_mem_nil
  | cons c rest ih =>
    cases skip with
    | succ skip => exact ih h
    | zero =>
      rw [scan] at h
      split at h
      · cases h
        exact List.forall_mem_singleton.mpr fun hlayout => by cases hlayout
      · next hc =>
        obtain ⟨⟨token, taken⟩, hlexeme, h⟩ := exists_of_bind_eq_ok h
        obtain ⟨tokens', hscan, heq⟩ := exists_of_bind_eq_ok h
        cases heq
        refine List.forall_mem_append.mpr ⟨fun t ht _ => ?_, ih hscan⟩
        exact isScannable_of_lexeme hc hlexeme t (Option.mem_toList.mp ht)

/-- A line holds tokens that lines can hold. -/
theorem scannable_of_ofText {text : List Char} {line : Line}
    (h : ofText text = .ok line) : Scannable line.plain := by
  rw [ofText] at h
  split at h
  · obtain ⟨_, hthrow, -⟩ := exists_of_bind_eq_ok h
    cases hthrow
  · obtain ⟨tokens, hscan, heq⟩ := exists_of_bind_eq_ok h
    cases heq
    intro t ht
    obtain ⟨hmem, hplain⟩ := List.mem_filter.mp ht
    exact isScannable_of_scan hscan t hmem (by simpa using hplain)

end Line

/-! ## Sources -/

theorem CodeLine.scannable_of_ofBytes {count : Nat} {bytes : List UInt8} {line : CodeLine}
    (h : ofBytes count bytes = .ok (some line)) : Scannable line.tokens := by
  obtain ⟨text, found, -, hfound, hline⟩ := exists_of_ofBytes h
  rw [ofLine?] at hline
  split at hline
  · cases hline
  · cases hline
    exact Line.scannable_of_ofText hfound

theorem CodeLine.scannable_of_leading {count : Nat} {physical : List (List UInt8)}
    {lines : List CodeLine} {e : Option LexError}
    (h : leading count physical = (lines, e)) :
    ∀ line ∈ lines, Scannable line.tokens := by
  induction physical generalizing count lines with
  | nil =>
    cases h
    exact fun line hline => absurd hline List.not_mem_nil
  | cons bytes rest ih =>
    cases hbytes : ofBytes count bytes with
    | error error =>
      rw [leading_of_error hbytes] at h
      cases h
      exact fun line hline => absurd hline List.not_mem_nil
    | ok found =>
      rw [leading_of_ok hbytes] at h
      cases h
      refine List.forall_mem_append.mpr ⟨fun line hline => ?_, ih rfl⟩
      obtain rfl := Option.mem_toList.mp hline
      exact scannable_of_ofBytes hbytes

/-- The lines of an accepted source hold tokens that lines can hold. -/
theorem Program.scannable_lines {source : Source} {lines : List CodeLine}
    (h : Lines source lines) :
    ∀ row ∈ lines.map CodeLine.row, Scannable row.tokens := by
  intro row hrow
  obtain ⟨line, hline, rfl⟩ := List.mem_map.mp hrow
  exact CodeLine.scannable_of_leading h line hline

end Mint
