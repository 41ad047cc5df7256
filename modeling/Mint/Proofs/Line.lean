import Mint.Reading

/-!
# Lines and their tokens

What is known of a physical line that could be read. Its bytes and its characters agree
on where line breaks are, no token reaches over a line break, and so the tokens of the
line are tokens proper followed by the newline mark if and only if the line has its line
feed.
-/

namespace Mint

/-- Whether a token is a mark for the shape of the text. -/
def Token.isLayout : Token → Bool
  | .layout _ => true
  | _ => false

/-- The tokens are tokens proper, without marks for the shape of the text. -/
def Plain (ts : List Token) : Prop := ∀ t ∈ ts, t.isLayout = false

theorem Plain.nil : Plain [] := fun _ h => absurd h List.not_mem_nil

theorem Plain.cons {t : Token} {ts : List Token} (h : t.isLayout = false)
    (hts : Plain ts) : Plain (t :: ts) :=
  List.forall_mem_cons.mpr ⟨h, hts⟩

theorem Plain.append {ts us : List Token} (hts : Plain ts) (hus : Plain us) :
    Plain (ts ++ us) :=
  List.forall_mem_append.mpr ⟨hts, hus⟩

theorem Plain.head {t : Token} {ts : List Token} (h : Plain (t :: ts)) :
    t.isLayout = false :=
  h t List.mem_cons_self

theorem Plain.tail {t : Token} {ts : List Token} (h : Plain (t :: ts)) : Plain ts :=
  (List.forall_mem_cons.mp h).2

namespace Source

/-! ## Line feeds and line breaks -/

theorem encodeChar_newline : String.utf8EncodeChar '\n' = [lineFeed] := by decide

/-- A byte at or above 128, which all bytes of longer encodings are, is no line feed. -/
theorem lineFeed_ne_ofNat {n : Nat} (hlow : 128 ≤ n) (hhigh : n < 256) :
    lineFeed ≠ UInt8.ofNat n := by
  intro h
  have hn := congrArg UInt8.toNat h
  rw [UInt8.toNat_ofNat', Nat.mod_eq_of_lt hhigh] at hn
  have hfeed : lineFeed.toNat = 10 := rfl
  omega

/-- Of all characters only the line break has a line feed in its encoding. -/
theorem eq_newline_of_lineFeed_mem {c : Char} (h : lineFeed ∈ String.utf8EncodeChar c) :
    c = '\n' := by
  unfold String.utf8EncodeChar at h
  simp only at h
  split at h
  · next hsmall =>
    have hn := congrArg UInt8.toNat (List.mem_singleton.mp h)
    rw [UInt8.toNat_ofNat', Nat.mod_eq_of_lt (by omega)] at hn
    exact Char.ext (UInt32.toNat_inj.mp hn.symm)
  · exfalso
    split at h
    · simp only [List.mem_cons, List.not_mem_nil, or_false] at h
      rcases h with h | h <;> exact lineFeed_ne_ofNat (by omega) (by omega) h
    · split at h
      · simp only [List.mem_cons, List.not_mem_nil, or_false] at h
        rcases h with h | h | h <;> exact lineFeed_ne_ofNat (by omega) (by omega) h
      · simp only [List.mem_cons, List.not_mem_nil, or_false] at h
        rcases h with h | h | h | h <;> exact lineFeed_ne_ofNat (by omega) (by omega) h

/-- The bytes of a text are those of its characters. -/
theorem toList_toUTF8 (text : String) :
    text.toUTF8.data.toList = text.toList.flatMap String.utf8EncodeChar := by
  rw [String.toUTF8_eq_toByteArray, ← String.utf8Encode_toList]
  simp [List.utf8Encode]

/-- Decoding is undone by encoding. -/
theorem bytes_of_decode? {bytes : List UInt8} {text : List Char}
    (h : decode? bytes = some text) :
    bytes = text.flatMap String.utf8EncodeChar := by
  simp only [decode?, String.fromUTF8?, Option.map_eq_some_iff] at h
  obtain ⟨str, hstr, rfl⟩ := h
  split at hstr
  · next hvalid =>
    cases hstr
    have hbytes : (String.fromUTF8 ⟨bytes.toArray⟩ hvalid).toByteArray.data.toList =
      bytes := rfl
    rw [← String.utf8Encode_toList] at hbytes
    simpa [List.utf8Encode] using hbytes.symm
  · cases hstr

/-- Without a line feed among the bytes there is no line break among the characters. -/
theorem newline_not_mem_of_decode? {bytes : List UInt8} {text : List Char}
    (h : decode? bytes = some text) (hfeed : lineFeed ∉ bytes) : '\n' ∉ text := by
  intro hmem
  rw [bytes_of_decode? h] at hfeed
  exact hfeed (List.mem_flatMap.mpr ⟨'\n', hmem, by simp [encodeChar_newline]⟩)

/-- A line that ends in its only line feed is a text that ends in its only line break. -/
theorem exists_of_decode?_concat {bytes : List UInt8} {text : List Char}
    (h : decode? (bytes ++ [lineFeed]) = some text) (hfeed : lineFeed ∉ bytes) :
    ∃ init, text = init ++ ['\n'] ∧ '\n' ∉ init := by
  have hbytes := bytes_of_decode? h
  obtain rfl | ⟨init, last, rfl⟩ := List.eq_nil_or_concat text
  · simp at hbytes
  · rw [List.concat_eq_append, List.flatMap_append, List.flatMap_singleton] at hbytes
    have hlast : last = '\n' := by
      have hends := congrArg List.getLast? hbytes
      rw [List.getLast?_concat, List.getLast?_append,
        Option.or_of_isSome (by simp)] at hends
      exact eq_newline_of_lineFeed_mem (List.mem_of_getLast? hends.symm)
    subst hlast
    rw [encodeChar_newline] at hbytes
    refine ⟨init, List.concat_eq_append, fun hmem => hfeed ?_⟩
    rw [List.append_cancel_right hbytes]
    exact List.mem_flatMap.mpr ⟨'\n', hmem, by simp [encodeChar_newline]⟩

end Source

/-! ## Tokens -/

theorem exists_of_map_eq_ok {ε α β : Type} {x : Except ε α} {f : α → β} {b : β}
    (h : x.map f = .ok b) :
    ∃ a, x = .ok a ∧ f a = b := by
  cases x with
  | error e => cases h
  | ok a => exact ⟨a, rfl, Except.ok.inj h⟩

theorem eq_ok_of_toOption {ε α : Type} {x : Except ε α} {a : α}
    (h : x.toOption = some a) : x = .ok a := by
  cases x with
  | error e => cases h
  | ok b => rw [Option.some.inj h]

theorem exists_of_bind_eq_ok {ε α β : Type} {x : Except ε α} {f : α → Except ε β} {b : β}
    (h : x >>= f = .ok b) : ∃ a, x = .ok a ∧ f a = .ok b := by
  cases x with
  | error e => cases h
  | ok a => exact ⟨a, rfl, h⟩

namespace Line

/-- The line break at the end of a text, if it has one. -/
def ending (terminated : Bool) : List Char := if terminated then ['\n'] else []

/-- The mark that stands for it. -/
def endMark (terminated : Bool) : List Token := if terminated then [Token.newline] else []

/-- How many characters stand before the first line break. -/
def room (text : List Char) : Nat := (text.takeWhile (· ≠ '\n')).length

theorem room_cons {c : Char} (rest : List Char) (h : c ≠ '\n') :
    room (c :: rest) = room rest + 1 := by
  simp [room, h]

theorem room_append_ending {body : List Char} (h : '\n' ∉ body) (terminated : Bool) :
    room (body ++ ending terminated) = body.length := by
  induction body with
  | nil => cases terminated <;> rfl
  | cons c body ih =>
    obtain ⟨hc, hbody⟩ := not_or.mp (mt List.mem_cons.mpr h)
    rw [List.cons_append, room_cons _ (Ne.symm hc), ih hbody, List.length_cons]

theorem length_takeWhile_le_room {p : Char → Bool} (hp : p '\n' = false)
    (text : List Char) :
    (text.takeWhile p).length ≤ room text := by
  induction text with
  | nil => exact Nat.le_refl 0
  | cons c rest ih =>
    by_cases hc : c = '\n'
    · simp [hc, hp]
    · rw [room_cons rest hc, List.takeWhile_cons]
      split
      · rw [List.length_cons]
        omega
      · exact Nat.zero_le _

theorem stringLiteral_taken {quote : Char} (hquote : quote ≠ '\n')
    {text value : List Char} {taken : Nat}
    (h : stringLiteral quote text = .ok (value, taken)) : taken ≤ room text := by
  fun_induction stringLiteral quote text generalizing value taken with
  | case1 => cases h
  | case2 rest =>
    cases h
    rw [room_cons rest hquote]
    omega
  | case3 => cases h
  | case4 => cases h
  | case5 e rest value' hvalue hne ih =>
    obtain ⟨⟨value'', taken'⟩, hrest, heq⟩ := exists_of_map_eq_ok h
    cases heq
    have htaken := ih hrest
    have he : e ≠ '\n' := by
      rintro rfl
      cases hvalue
    rw [room_cons _ (by decide), room_cons _ he]
    omega
  | case6 => cases h
  | case7 c rest hne hslash hbreak ih =>
    obtain ⟨⟨value', taken'⟩, hrest, heq⟩ := exists_of_map_eq_ok h
    cases heq
    have htaken := ih hrest
    rw [room_cons _ fun hc => hbreak (.inl hc)]
    omega

theorem isLayout_word (letters : List Char) : (word letters).isLayout = false := by
  rw [word]
  split <;> rfl

theorem isLayout_symbol (c : Char) (rest : List Char) :
    (symbol c rest).1.isLayout = false := by
  unfold symbol
  split <;> rfl

theorem symbol_taken (c : Char) (rest : List Char) : (symbol c rest).2 ≤ room rest := by
  unfold symbol
  split
  · next rest _ =>
    rw [room_cons rest (by decide)]
    omega
  · exact Nat.zero_le _

/-- A token is not a layout mark and does not reach over a line break. -/
theorem lexeme_taken {c : Char} {rest : List Char} {token : Option Token} {taken : Nat}
    (h : lexeme c rest = .ok (token, taken)) :
    taken ≤ room rest ∧ ∀ t ∈ token, t.isLayout = false := by
  unfold lexeme at h
  split at h
  · cases h
    exact ⟨Nat.zero_le _, by simp⟩
  split at h
  · cases h
    exact ⟨Nat.le_refl _, by simp⟩
  split at h
  · next hquote =>
    obtain ⟨⟨text, n⟩, hliteral, heq⟩ := exists_of_map_eq_ok h
    cases heq
    refine ⟨stringLiteral_taken ?_ hliteral, by simp [Token.isLayout]⟩
    rcases hquote with rfl | rfl <;> decide
  split at h
  · obtain ⟨value, -, heq⟩ := exists_of_map_eq_ok h
    cases heq
    exact ⟨length_takeWhile_le_room (by decide) rest, by simp [Token.isLayout]⟩
  split at h
  · cases h
    exact ⟨length_takeWhile_le_room (by decide) rest, by simp [isLayout_word]⟩
  · simp only [Except.ok.injEq, Prod.mk.injEq] at h
    obtain ⟨rfl, rfl⟩ := h
    exact ⟨symbol_taken c rest, by simp [isLayout_symbol]⟩

/-- The tokens of a text without line breaks hold no layout marks, save the one for the
line break behind it. -/
theorem scan_eq_ok {body : List Char} (hbody : '\n' ∉ body) {terminated : Bool}
    {skip : Nat} (hskip : skip ≤ body.length) {tokens : List Token}
    (h : scan skip (body ++ ending terminated) = .ok tokens) :
    ∃ plain, tokens = plain ++ endMark terminated ∧ Plain plain := by
  induction body generalizing skip tokens with
  | nil =>
    obtain rfl := Nat.le_zero.mp hskip
    cases terminated <;> cases h <;> exact ⟨[], rfl, .nil⟩
  | cons c rest ih =>
    obtain ⟨hc, hrest⟩ := not_or.mp (mt List.mem_cons.mpr hbody)
    cases skip with
    | succ skip => exact ih hrest (Nat.le_of_succ_le_succ hskip) h
    | zero =>
      rw [List.cons_append, scan, if_neg (Ne.symm hc)] at h
      obtain ⟨⟨token, taken⟩, hlexeme, h⟩ := exists_of_bind_eq_ok h
      obtain ⟨tokens', hscan, heq⟩ := exists_of_bind_eq_ok h
      cases heq
      obtain ⟨htaken, htoken⟩ := lexeme_taken hlexeme
      rw [room_append_ending hrest] at htaken
      obtain ⟨plain, rfl, hplain⟩ := ih hrest htaken hscan
      refine ⟨token.toList ++ plain, (List.append_assoc ..).symm, .append ?_ hplain⟩
      exact fun t ht => htoken t (Option.mem_toList.mp ht)

/-- The tokens of a line without its newline mark. -/
def plain (line : Line) : List Token := line.tokens.filter fun token => !token.isLayout

/-- How many spaces a text begins with. -/
def leadingSpaces (text : List Char) : Nat := (text.takeWhile (· == ' ')).length

/-- Two spaces make a level. -/
theorem leadingSpaces_of_ofText {text : List Char} {line : Line}
    (h : ofText text = .ok line) :
    leadingSpaces text = indentWidth * line.depth := by
  simp only [ofText] at h
  split at h
  · cases h
  · next heven =>
    obtain ⟨tokens, -, heq⟩ := exists_of_bind_eq_ok h
    cases heq
    simp only [leadingSpaces, indentWidth] at heven ⊢
    omega

theorem ofText_eq_ok {body : List Char} (hbody : '\n' ∉ body) {terminated : Bool}
    {line : Line} (h : ofText (body ++ ending terminated) = .ok line) :
    line.tokens = line.plain ++ endMark terminated := by
  have hspaces :=
    length_takeWhile_le_room (p := (· == ' ')) rfl (body ++ ending terminated)
  rw [room_append_ending hbody] at hspaces
  simp only [ofText] at h
  split at h
  · cases h
  · rw [List.drop_append_of_le_length hspaces] at h
    obtain ⟨tokens, hscan, heq⟩ := exists_of_bind_eq_ok h
    cases heq
    obtain ⟨plain, rfl, hplain⟩ :=
      scan_eq_ok (fun hmem => hbody (List.mem_of_mem_drop hmem)) (Nat.zero_le _) hscan
    have hfilter : plain.filter (fun token => !token.isLayout) = plain :=
      List.filter_eq_self.mpr fun t ht => by rw [hplain t ht]; rfl
    have hmark : (endMark terminated).filter (fun token => !token.isLayout) = [] := by
      cases terminated <;> rfl
    rw [Line.plain, List.filter_append, hfilter, hmark, List.append_nil]

/-- A line is blank if it has no tokens proper. -/
theorem isBlank_iff {line : Line} {terminated : Bool}
    (h : line.tokens = line.plain ++ endMark terminated) :
    line.isBlank = true ↔ line.plain = [] := by
  rw [isBlank, h, List.all_append, Bool.and_eq_true]
  constructor
  · rintro ⟨hall, -⟩
    rw [List.eq_nil_iff_forall_not_mem]
    intro t ht
    have hlayout := (List.mem_filter.mp ht).2
    rw [beq_iff_eq.mp (List.all_eq_true.mp hall t ht)] at hlayout
    cases hlayout
  · intro hnil
    rw [hnil]
    exact ⟨rfl, by cases terminated <;> rfl⟩

end Line

end Mint
