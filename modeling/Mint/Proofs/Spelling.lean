import Mint.Proofs.Line
import Mint.Token.Spelling

/-!
# Tokens that are spelled are read

Reading undoes spelling. What stands behind a spelled token must not go on with it, and
a space, a comment or the end of the line goes on with no token (`EndsToken`); then the
scanner finds the token and goes on behind it (`Line.scan_spelling`). Tokens with spaces
between them are therefore read as those tokens (`Line.scan_spellSpaced`), and a line of
them at the depth that it was written at (`Line.ofText_spellLine`).
-/

namespace Mint

/-- No token goes on with the text. -/
def EndsToken (rest : List Char) : Prop := ∀ c ∈ rest.head?, c = ' ' ∨ c = '\n' ∨ c = '#'

theorem EndsToken.cons_space (rest : List Char) : EndsToken (' ' :: rest) := by
  intro c hc
  cases hc
  exact .inl rfl

theorem EndsToken.cons_newline (rest : List Char) : EndsToken ('\n' :: rest) := by
  intro c hc
  cases hc
  exact .inr (.inl rfl)

theorem EndsToken.spaces {rest : List Char} (h : EndsToken rest) (n : Nat) :
    EndsToken (List.replicate n ' ' ++ rest) := by
  cases n with
  | zero => exact h
  | succ n => exact .cons_space _

/-- What is taken as long as a test holds, if the text behind it begins with something
else. -/
theorem takeWhile_append_of_head {p : Char → Bool} {letters rest : List Char}
    (hletters : ∀ c ∈ letters, p c = true) (hrest : ∀ c ∈ rest.head?, p c = false) :
    (letters ++ rest).takeWhile p = letters := by
  rw [List.takeWhile_append_of_pos hletters]
  cases rest with
  | nil => rw [List.takeWhile_nil, List.append_nil]
  | cons c rest =>
    rw [List.takeWhile_cons_of_neg (by rw [hrest c rfl]; exact Bool.false_ne_true),
      List.append_nil]

theorem EndsToken.head {p : Char → Bool} {rest : List Char} (h : EndsToken rest)
    (hspace : p ' ' = false) (hnewline : p '\n' = false) (hcomment : p '#' = false) :
    ∀ c ∈ rest.head?, p c = false := by
  intro c hc
  rcases h c hc with rfl | rfl | rfl
  · exact hspace
  · exact hnewline
  · exact hcomment

namespace Line

/-- The scanner goes on behind what a token has taken. -/
theorem scan_of_lexeme {c : Char} {rest : List Char} {token : Option Token} {taken : Nat}
    (hc : c ≠ '\n') (h : lexeme c rest = .ok (token, taken)) :
    scan 0 (c :: rest) = (scan 0 (rest.drop taken)).map (token.toList ++ ·) := by
  rw [scan, if_neg hc, h, ← scan_eq_scan_drop]
  rfl

/-! ## Kinds of tokens -/

theorem isNamePart_of_isNameStart {c : Char} (h : isNameStart c = true) :
    isNamePart c = true := by
  simp only [isNameStart, isNamePart, Char.isAlphanum, Bool.or_eq_true] at h ⊢
  rcases h with h | h
  · exact .inl (.inl h)
  · exact .inr h

/-- The characters that begin neither a word nor a number. -/
theorem not_special_of_isNamePart {c : Char} (h : isNamePart c = true) :
    c ≠ '\n' ∧ c ≠ ' ' ∧ c ≠ '#' ∧ c ≠ '"' ∧ c ≠ '\'' := by
  refine ⟨?_, ?_, ?_, ?_, ?_⟩ <;>
    (rintro rfl
     cases h)

theorem not_isDigit_of_isNameStart {c : Char} (h : isNameStart c = true) :
    c.isDigit = false := by
  refine Bool.eq_false_iff.mpr fun hdigit => ?_
  have hmax : c.toNat ≤ 57 := (Char.isDigit_iff_toNat.mp hdigit).2
  rcases (Bool.or_eq_true _ _).mp h with hletter | hunder
  · rcases (Bool.or_eq_true _ _).mp hletter with hupper | hlower
    · have hmin : 65 ≤ c.toNat := (of_decide_eq_true hupper).1
      omega
    · have hmin : 97 ≤ c.toNat := of_decide_eq_true ((Bool.and_eq_true _ _).mp hlower).1
      omega
  · obtain rfl := beq_iff_eq.mp hunder
    cases hdigit

theorem lexeme_word {c : Char} {letters rest : List Char} (hc : isNameStart c = true)
    (hletters : ∀ l ∈ letters, isNamePart l = true) (hrest : EndsToken rest) :
    lexeme c (letters ++ rest) = .ok (some (word (c :: letters)), letters.length) := by
  obtain ⟨-, hspace, hcomment, hdouble, hsingle⟩ :=
    not_special_of_isNamePart (isNamePart_of_isNameStart hc)
  rw [lexeme, if_neg hspace, if_neg hcomment, if_neg (not_or.mpr ⟨hdouble, hsingle⟩),
    if_neg (by rw [not_isDigit_of_isNameStart hc]; exact Bool.false_ne_true), if_pos hc,
    takeWhile_append_of_head hletters (hrest.head rfl rfl rfl)]

theorem not_special_of_isDigit {c : Char} (h : c.isDigit = true) :
    c ≠ '\n' ∧ c ≠ ' ' ∧ c ≠ '#' ∧ c ≠ '"' ∧ c ≠ '\'' :=
  not_special_of_isNamePart
    (by rw [isNamePart, Char.isAlphanum, h, Bool.or_true, Bool.true_or])

/-- The digits of a number that is not negative are read as that number. -/
theorem intLiteral_numberText {value : Int64} (h : 0 ≤ value.toInt) :
    intLiteral (Nat.toDigits 10 value.toNatClampNeg) = .ok value := by
  have hbound : value.toNatClampNeg < literalBound := value.toNatClampNeg_lt
  have hvalue : Int64.ofNat value.toNatClampNeg = value := by
    rw [← Int64.toInt_inj, Int64.toInt_ofNat_of_lt value.toNatClampNeg_lt,
      ← Int64.toNat_toInt, Int.toNat_of_nonneg h]
  rw [intLiteral, Nat.ofDigitChars_ten_toDigits, if_pos hbound, hvalue]

theorem toList_numberText {value : Int64} (h : 0 ≤ value.toInt) :
    (numberText value).toList = Nat.toDigits 10 value.toNatClampNeg := by
  rw [numberText, Int.toString_eq_repr, Int.repr_eq_if, if_pos h, Int64.toNat_toInt,
    Nat.toList_repr]

/-- Digits are one token, as many of them as there are. -/
theorem lexeme_digits {c : Char} {digits rest : List Char} (hc : c.isDigit = true)
    (hdigits : ∀ d ∈ digits, d.isDigit = true)
    (hrest : ∀ d ∈ rest.head?, d.isDigit = false) :
    lexeme c (digits ++ rest) = (intLiteral (c :: digits)).map fun value =>
      (some (.number value), digits.length) := by
  obtain ⟨-, hspace, hcomment, hdouble, hsingle⟩ := not_special_of_isDigit hc
  rw [lexeme, if_neg hspace, if_neg hcomment, if_neg (not_or.mpr ⟨hdouble, hsingle⟩),
    if_pos hc, takeWhile_append_of_head hdigits hrest]

theorem lexeme_number {value : Int64} {c : Char} {digits rest : List Char}
    (hvalue : 0 ≤ value.toInt)
    (hdigits : Nat.toDigits 10 value.toNatClampNeg = c :: digits)
    (hrest : EndsToken rest) :
    lexeme c (digits ++ rest) = .ok (some (.number value), digits.length) := by
  have hall : ∀ d ∈ c :: digits, d.isDigit = true := by
    intro d hd
    rw [← hdigits] at hd
    exact Nat.isDigit_of_mem_toDigits (by decide) (by decide) hd
  obtain ⟨hc, hmore⟩ := List.forall_mem_cons.mp hall
  rw [lexeme_digits hc hmore (hrest.head rfl rfl rfl), ← hdigits,
    intLiteral_numberText hvalue]
  rfl

/-- The characters of a string literal up to its closing quote. -/
theorem stringLiteral_literalText {text : List Char} (h : ∀ c ∈ text, c ≠ '\\' ∧ c ≠ '\r')
    (rest : List Char) :
    stringLiteral '"' (text.flatMap Token.literalChar ++ '"' :: rest) =
      .ok (text, (text.flatMap Token.literalChar).length + 1) := by
  induction text with
  | nil =>
    rw [List.flatMap_nil, List.nil_append, stringLiteral.eq_def]
    simp
  | cons c text ih =>
    obtain ⟨⟨hslash, hreturn⟩, htext⟩ := List.forall_mem_cons.mp h
    have hrest := ih htext
    rw [List.flatMap_cons, List.append_assoc, Token.literalChar]
    by_cases hquote : c = '"'
    · subst hquote
      rw [if_pos rfl]
      simp only [List.cons_append, List.nil_append, stringLiteral, hrest]
      simp [resolveEscape?, Except.map]
    · by_cases hbreak : c = '\n'
      · subst hbreak
        rw [if_neg hquote, if_pos rfl]
        simp only [List.cons_append, List.nil_append, stringLiteral, hrest]
        simp [resolveEscape?, Except.map]
      · rw [if_neg hquote, if_neg hbreak, List.cons_append, List.nil_append,
          stringLiteral.eq_def]
        simp only [hquote, hslash, hbreak, hreturn, or_self, if_false, hrest]
        simp [Except.map]

theorem lexeme_string {text : String} (h : ∀ c ∈ text.toList, c ≠ '\\' ∧ c ≠ '\r')
    (rest : List Char) :
    lexeme '"' (text.toList.flatMap Token.literalChar ++ ['"'] ++ rest) =
      .ok (some (.string text),
        (text.toList.flatMap Token.literalChar ++ ['"']).length) := by
  rw [List.append_assoc, List.singleton_append, List.length_append, lexeme,
    if_neg (by decide), if_neg (by decide), if_pos (.inl rfl),
    stringLiteral_literalText h rest]
  simp [Except.map]

theorem symbol_of_endsToken {rest : List Char} (h : EndsToken rest) (c : Char) :
    symbol c rest = (.char c, 0) := by
  unfold symbol
  split
  · next r rest _ =>
    rcases h '=' rfl with heq | heq | heq <;> cases heq
  · rfl

theorem symbol_lead (rel : Relation) (rest : List Char) :
    symbol rel.lead ('=' :: rest) = (.relation rel, 1) := by
  cases rel <;> rfl

theorem lexeme_symbol {c : Char} {rest : List Char} (hc : Token.isSymbol c = true) :
    lexeme c rest = .ok (some (symbol c rest).1, (symbol c rest).2) := by
  simp only [Token.isSymbol, Bool.not_eq_true', Bool.or_eq_false_iff,
    beq_eq_false_iff_ne] at hc
  obtain ⟨⟨⟨⟨⟨⟨hspace, -⟩, hcomment⟩, hdouble⟩, hsingle⟩, hdigit⟩, hname⟩ := hc
  rw [lexeme, if_neg hspace, if_neg hcomment, if_neg (not_or.mpr ⟨hdouble, hsingle⟩),
    if_neg (by rw [hdigit]; exact Bool.false_ne_true),
    if_neg (by rw [hname]; exact Bool.false_ne_true)]

theorem word_spelling (keyword : Keyword) :
    word keyword.spelling.toList = .keyword keyword := by
  rw [word, String.ofList_toList, Keyword.ofSpelling?_spelling]

theorem word_of_isName {name : String} (h : Token.isName name.toList = true) :
    word name.toList = .id name := by
  cases hletters : name.toList with
  | nil =>
    rw [hletters] at h
    cases h
  | cons c letters =>
    rw [hletters, Token.isName, Bool.and_eq_true, Option.isNone_iff_eq_none] at h
    rw [word, h.2, ← hletters, String.ofList_toList]

/-! ## Tokens -/

/-- How a token that a line can hold begins, and that the scanner finds it. -/
theorem lexeme_spelling {token : Token} (h : token.isScannable = true) {rest : List Char}
    (hrest : EndsToken rest) :
    ∃ c more, token.spelling = c :: more ∧ c ≠ '\n' ∧ c ≠ ' ' ∧
      lexeme c (more ++ rest) = .ok (some token, more.length) := by
  cases token with
  | number value =>
    have hvalue : 0 ≤ value.toInt := of_decide_eq_true h
    obtain ⟨c, digits, hdigits⟩ := List.exists_cons_of_ne_nil
      (Nat.toDigits_ne_nil (n := value.toNatClampNeg) (b := 10))
    have hmem :
      c ∈ Nat.toDigits 10 value.toNatClampNeg := by rw [hdigits]; exact List.mem_cons_self
    obtain ⟨hbreak, hspace, -⟩ :=
      not_special_of_isDigit (Nat.isDigit_of_mem_toDigits (by decide) (by decide) hmem)
    exact ⟨c, digits, (toList_numberText hvalue).trans hdigits, hbreak, hspace,
      lexeme_number hvalue hdigits hrest⟩
  | id name =>
    have hword := word_of_isName h
    obtain ⟨c, letters, hletters⟩ : ∃ c letters, name.toList = c :: letters := by
      refine List.exists_cons_of_ne_nil ?_
      intro hnil
      rw [Token.isScannable, hnil] at h
      cases h
    rw [Token.isScannable, hletters, Token.isName, Bool.and_eq_true, Bool.and_eq_true,
      List.all_eq_true] at h
    obtain ⟨hbreak, hspace, -⟩ :=
      not_special_of_isNamePart (isNamePart_of_isNameStart h.1.1)
    refine ⟨c, letters, hletters, hbreak, hspace, ?_⟩
    rw [lexeme_word h.1.1 h.1.2 hrest, ← hletters, hword]
  | char c =>
    obtain ⟨hspace, hbreak⟩ : c ≠ ' ' ∧ c ≠ '\n' := by
      constructor <;>
        (rintro rfl
         cases h)
    refine ⟨c, [], rfl, hbreak, hspace, ?_⟩
    rw [List.nil_append, lexeme_symbol h, symbol_of_endsToken hrest]
    rfl
  | string text =>
    have htext : ∀ c ∈ text.toList, c ≠ '\\' ∧ c ≠ '\r' := by
      intro c hc
      simpa using List.all_eq_true.mp h c hc
    exact ⟨'"', _, rfl, by decide, by decide, lexeme_string htext rest⟩
  | keyword word =>
    have hstart : ∃ c letters,
        word.spelling.toList = c :: letters ∧ isNameStart c = true ∧
        letters.all isNamePart = true := by
      cases word <;> exact ⟨_, _, rfl, rfl, rfl⟩
    obtain ⟨c, letters, hletters, hc, hall⟩ := hstart
    have hmore := List.all_eq_true.mp hall
    obtain ⟨hbreak, hspace, -⟩ := not_special_of_isNamePart (isNamePart_of_isNameStart hc)
    refine ⟨c, letters, hletters, hbreak, hspace, ?_⟩
    rw [lexeme_word hc hmore hrest, ← hletters, word_spelling]
  | relation rel =>
    refine ⟨rel.lead, ['='], rfl, by cases rel <;> decide, by cases rel <;> decide, ?_⟩
    rw [lexeme_symbol (by cases rel <;> decide), List.singleton_append, symbol_lead]
    rfl
  | layout mark => cases h

/-- The scanner finds a spelled token and goes on behind it. -/
theorem scan_spelling {token : Token} (h : token.isScannable = true) {rest : List Char}
    (hrest : EndsToken rest) :
    scan 0 (token.spelling ++ rest) = (scan 0 rest).map (token :: ·) := by
  obtain ⟨c, more, hspelling, hc, -, hlexeme⟩ := lexeme_spelling h hrest
  rw [hspelling, List.cons_append, scan_of_lexeme hc hlexeme, List.drop_left]
  rfl

/-- A space between tokens is passed over. -/
theorem scan_space (rest : List Char) : scan 0 (' ' :: rest) = scan 0 rest := by
  rw [scan_of_lexeme (by decide) (by rw [lexeme, if_pos rfl]), List.drop_zero]
  cases scan 0 rest <;> rfl

theorem scan_spaces (n : Nat) (rest : List Char) :
    scan 0 (List.replicate n ' ' ++ rest) = scan 0 rest := by
  induction n with
  | zero => rfl
  | succ n ih => rw [List.replicate_succ, List.cons_append, scan_space, ih]

/-! ## Tokens in a row -/

/-- Tokens written one behind the other, all but the first with the given number of
spaces before them. -/
def spellSpaced (first : Token) (more : List (Nat × Token)) : List Char :=
  first.spelling ++ more.flatMap fun later =>
    List.replicate later.1 ' ' ++ later.2.spelling

theorem spellSpaced_cons (first : Token) (later : Nat × Token)
    (more : List (Nat × Token)) :
    spellSpaced first (later :: more) =
      first.spelling ++ (List.replicate later.1 ' ' ++ spellSpaced later.2 more) := by
  rw [spellSpaced, spellSpaced, List.flatMap_cons, List.append_assoc]

/-- Tokens with spaces between them are found one after the other. -/
theorem scan_spellSpaced {first : Token} (hfirst : first.isScannable = true)
    {more : List (Nat × Token)}
    (hmore : ∀ later ∈ more, 0 < later.1 ∧ later.2.isScannable = true) {rest : List Char}
    (hrest : EndsToken rest) :
    scan 0 (spellSpaced first more ++ rest) =
      (scan 0 rest).map (first :: more.map Prod.snd ++ ·) := by
  induction more generalizing first with
  | nil =>
    rw [spellSpaced, List.flatMap_nil, List.append_nil]
    exact scan_spelling hfirst hrest
  | cons later more ih =>
    obtain ⟨⟨hgap, hlater⟩, hmore⟩ := List.forall_mem_cons.mp hmore
    obtain ⟨n, hn⟩ := Nat.exists_eq_add_of_lt hgap
    rw [spellSpaced_cons, List.append_assoc, List.append_assoc, hn, Nat.zero_add,
      List.replicate_succ, List.cons_append,
      scan_spelling hfirst (EndsToken.cons_space _), scan_space, scan_spaces,
      ih hlater hmore]
    cases scan 0 rest <;> rfl

theorem spellTokens_cons (first : Token) (rest : List Token) :
    spellTokens (first :: rest) =
      spellSpaced first (rest.map fun token => (1, token)) := by
  induction rest generalizing first with
  | nil => rw [spellTokens, List.map_nil, spellSpaced, List.flatMap_nil, List.append_nil]
  | cons second rest ih =>
    rw [spellTokens, List.map_cons, spellSpaced_cons, ih]
    · rfl
    · exact List.cons_ne_nil second rest

theorem scan_spellTokens {tokens : List Token}
    (h : ∀ token ∈ tokens, token.isScannable = true)
    {rest : List Char} (hrest : EndsToken rest) :
    scan 0 (spellTokens tokens ++ rest) = (scan 0 rest).map (tokens ++ ·) := by
  cases tokens with
  | nil =>
    show scan 0 rest = (scan 0 rest).map ([] ++ ·)
    cases scan 0 rest <;> rfl
  | cons first tokens =>
    obtain ⟨hfirst, htokens⟩ := List.forall_mem_cons.mp h
    have hspaced : ∀ later ∈ tokens.map fun token => (1, token),
        0 < later.1 ∧ later.2.isScannable = true := by
      simpa using htokens
    rw [spellTokens_cons, scan_spellSpaced hfirst hspaced hrest, List.map_map]
    simp [Function.comp_def]

/-- A spelled token does not begin with a space. -/
theorem takeWhile_spellSpaced {first : Token} (hfirst : first.isScannable = true)
    (more : List (Nat × Token)) (rest : List Char) :
    (spellSpaced first more ++ rest).takeWhile (· == ' ') = [] := by
  obtain ⟨c, letters, hspelling, -, hspace, -⟩ :=
    lexeme_spelling hfirst (EndsToken.cons_space [])
  simp [spellSpaced, hspelling, hspace]

theorem takeWhile_spellTokens {tokens : List Token}
    (h : ∀ token ∈ tokens, token.isScannable = true) (rest : List Char) :
    (spellTokens tokens ++ '\n' :: rest).takeWhile (· == ' ') = [] := by
  cases tokens with
  | nil => rfl
  | cons first tokens =>
    rw [spellTokens_cons]
    exact takeWhile_spellSpaced (h first List.mem_cons_self) _ _

/-- Leading spaces are the depth of the line, if their number is even. -/
theorem ofText_indented (spaces : Nat) {body : List Char}
    (h : body.takeWhile (· == ' ') = []) :
    ofText (List.replicate spaces ' ' ++ body) =
      if spaces % indentWidth ≠ 0 then .error (.oddIndent spaces)
      else (scan 0 body).map fun tokens => ⟨spaces / indentWidth, tokens⟩ := by
  have hspaces : (List.replicate spaces ' ' ++ body).takeWhile (· == ' ') =
      List.replicate spaces ' ' := by
    rw [List.takeWhile_append_of_pos (by simp), h, List.append_nil]
  simp only [ofText, hspaces, List.length_replicate]
  rw [List.drop_left' (List.length_replicate ..)]
  split
  · rfl
  · cases scan 0 body <;> rfl

/-- A line of spelled tokens is read as what was written. -/
theorem ofText_spellLine (depth : Nat) {tokens : List Token}
    (h : ∀ token ∈ tokens, token.isScannable = true) :
    ofText (spellLine depth tokens) = .ok ⟨depth, tokens ++ [Token.newline]⟩ := by
  have hscan :
      scan 0 (spellTokens tokens ++ ['\n']) = .ok (tokens ++ [Token.newline]) := by
    rw [scan_spellTokens h (EndsToken.cons_newline [])]
    rfl
  rw [spellLine, List.append_assoc, ofText_indented _ (takeWhile_spellTokens h []), hscan]
  simp [indentWidth, Except.map]

end Line

end Mint
