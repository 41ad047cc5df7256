import Mint.Proofs.Line
import Mint.Program.Printer

/-!
# The stream as a list of lines

The stream of a source is laid out again as the lines that have tokens (`CodeLine`).
`flat` writes such lines as readings: before the tokens of each line stand the marks for
its change of depth, behind them a newline mark. The stream of a source is `flat` of its
lines up to the first line that cannot be read, and behind that either the end of the
input or the error (`CodeLine.ofLines_eq_flat`).
-/

namespace Mint

/-- A line with tokens: where it stands, how deep, and its tokens without the newline
mark. -/
structure CodeLine where
  number : Nat
  depth : Nat
  tokens : List Token
  nonempty : tokens ≠ []
  plain : Plain tokens

namespace CodeLine

/-- The line without its number. -/
def row (line : CodeLine) : Row := ⟨line.depth, line.tokens⟩

/-- A line with tokens, or nothing if the line is blank. -/
def ofLine? (number : Nat) (line : Line) : Option CodeLine :=
  if h : line.plain = [] then none
  else some ⟨number, line.depth, line.plain, h,
    fun t ht => by simpa using (List.mem_filter.mp ht).2⟩

/-- Reads the physical line after `count` others. -/
def ofBytes (count : Nat) (bytes : List UInt8) : Except LexError (Option CodeLine) :=
  match Source.decode? bytes with
  | none => .error ⟨count + 1, .unreadable .notUtf8⟩
  | some text =>
    match Line.ofText text with
    | .error cause => .error ⟨count + 1, .scan cause⟩
    | .ok line => .ok (ofLine? (count + 1) line)

/-- The lines with tokens up to the first line that cannot be read, and the error of
that one. -/
def leading (count : Nat) : List (List UInt8) → List CodeLine × Option LexError
  | [] => ([], none)
  | bytes :: rest =>
    match ofBytes count bytes with
    | .error e => ([], some e)
    | .ok line =>
      let (lines, e) := leading (count + 1) rest
      (line.toList ++ lines, e)

/-- Lines as readings, given the depth before them. -/
def flat (depth : Nat) : List CodeLine → List Reading
  | [] => []
  | line :: rest =>
    Reading.place line.number
      (Reading.layoutMarks depth line.depth ++ line.tokens ++ [Token.newline]) ++
      flat line.depth rest

/-- What stands behind the lines: the end of the input, or the error of the next line. -/
def Ends : Option LexError → List Reading → Prop
  | none, tail => ∃ number, tail = [.token ⟨Token.eof, number⟩]
  | some e, tail => ∃ rest, tail = .fault e :: rest

end CodeLine

namespace Source

/-- Bytes cut into lines: every line but the last ends in its only line feed, and the
last may do without. -/
inductive Chopped : List (List UInt8) → Prop where
  | nil : Chopped []
  | last {line} (hne : line ≠ []) (h : lineFeed ∉ line) : Chopped [line]
  | cons {line rest} (h : lineFeed ∉ line)
    (hrest : Chopped rest) : Chopped ((line ++ [lineFeed]) :: rest)

theorem chopped_cut (bytes : List UInt8) : Chopped (cut bytes) := by
  induction bytes with
  | nil => exact .nil
  | cons b rest ih =>
    rw [cut]
    split
    · next hb =>
      subst hb
      show Chopped (([] ++ [lineFeed]) :: cut rest)
      exact .cons List.not_mem_nil ih
    · next hb =>
      -- the byte goes to the front of the first line
      cases hcut : cut rest with
      | nil => exact .last (List.cons_ne_nil _ _) (by simpa using Ne.symm hb)
      | cons line lines =>
        rw [hcut] at ih
        cases ih with
        | last hne h => exact .last (List.cons_ne_nil _ _) (by simp [Ne.symm hb, h])
        | @cons line _ h hrest =>
          show Chopped (((b :: line) ++ [lineFeed]) :: lines)
          exact .cons (by simp [Ne.symm hb, h]) hrest

/-- Bytes that end in a line feed are cut by themselves. -/
theorem cut_append {bytes bytes' : List UInt8}
    (h : bytes = [] ∨ bytes.getLast? = some lineFeed) :
    cut (bytes ++ bytes') = cut bytes ++ cut bytes' := by
  induction bytes with
  | nil => rfl
  | cons b rest ih =>
    have hlast : (b :: rest).getLast? = some lineFeed := by simpa using h
    by_cases hb : b = lineFeed
    · have hrest : rest = [] ∨ rest.getLast? = some lineFeed := by
        cases rest with
        | nil => exact .inl rfl
        | cons c rest => exact .inr (by rwa [List.getLast?_cons_cons] at hlast)
      rw [List.cons_append, cut, cut, if_pos hb, if_pos hb, ih hrest, List.cons_append]
    · cases rest with
      | nil => exact absurd (Option.some.inj hlast) hb
      | cons c rest =>
        rw [List.getLast?_cons_cons] at hlast
        -- the rest is not empty, so its first line is there to be put together with the
        -- byte
        rw [List.cons_append, cut, cut, if_neg hb, if_neg hb, ih (.inr hlast)]
        cases hcut : cut (c :: rest) with
        | nil =>
          have hflatten := flatten_cut (c :: rest)
          rw [hcut] at hflatten
          cases hflatten
        | cons line lines => rfl

/-- A line is cut by itself. -/
theorem cut_concat {line : List UInt8} (h : lineFeed ∉ line) :
    cut (line ++ [lineFeed]) = [line ++ [lineFeed]] := by
  induction line with
  | nil => rfl
  | cons b line ih =>
    obtain ⟨hb, hline⟩ := not_or.mp (mt List.mem_cons.mpr h)
    rw [List.cons_append, cut, if_neg (Ne.symm hb), ih hline]

/-- A last line that has no line feed is not cut. -/
theorem cut_of_not_mem {line : List UInt8} (hne : line ≠ []) (h : lineFeed ∉ line) :
    cut line = [line] := by
  induction line with
  | nil => exact absurd rfl hne
  | cons b line ih =>
    obtain ⟨hb, hline⟩ := not_or.mp (mt List.mem_cons.mpr h)
    rw [cut, if_neg (Ne.symm hb)]
    cases line with
    | nil => rfl
    | cons c line => rw [ih (List.cons_ne_nil _ _) hline]

/-- Lines that are put together are cut apart again. -/
theorem Chopped.cut_flatten {lines : List (List UInt8)} (h : Chopped lines) :
    cut lines.flatten = lines := by
  induction h with
  | nil => rfl
  | last hne h =>
    rw [List.flatten_cons, List.flatten_nil, List.append_nil, cut_of_not_mem hne h]
  | cons h _ ih =>
    rw [List.flatten_cons, cut_append (.inr List.getLast?_concat), cut_concat h, ih]
    rfl

theorem Chopped.left {lines lines' : List (List UInt8)} (h : Chopped (lines ++ lines')) :
    Chopped lines := by
  induction lines with
  | nil => exact .nil
  | cons line lines ih =>
    rw [List.cons_append] at h
    generalize hrest : lines ++ lines' = rest at h
    cases h with
    | last hne h =>
      rw [(List.append_eq_nil_iff.mp hrest).1]
      exact .last hne h
    | cons h hchopped => exact .cons h (ih (hrest ▸ hchopped))

theorem isTerminated_concat (line : List UInt8) :
    isTerminated (line ++ [lineFeed]) = true := by
  simp [isTerminated]

theorem isTerminated_of_not_mem {line : List UInt8} (h : lineFeed ∉ line) :
    isTerminated line = false := by
  rw [isTerminated, beq_eq_false_iff_ne]
  intro hlast
  exact h (List.mem_of_getLast? hlast)

end Source

namespace CodeLine

open Reading (place layoutMarks lineTokens)

theorem place_append (number : Nat) (ts us : List Token) :
    place number (ts ++ us) = place number ts ++ place number us := List.map_append

/-- A line that is closed in the source and one that is closed for it add the same
tokens. -/
theorem lineTokens_eq (depth : Nat) {line : Line} {terminated : Bool}
    (h : line.tokens = line.plain ++ Line.endMark terminated) :
    lineTokens depth line terminated =
      layoutMarks depth line.depth ++ line.plain ++ [Token.newline] := by
  rw [lineTokens, h]
  cases terminated <;> simp [Line.endMark]

/-- What a line that can be read adds to the stream, and what depth it leaves. -/
theorem flat_ofLine? (number depth : Nat) {line : Line} {terminated : Bool}
    (rest : List CodeLine) (h : line.tokens = line.plain ++ Line.endMark terminated) :
    flat depth ((ofLine? number line).toList ++ rest) =
      place number (if line.isBlank then [] else lineTokens depth line terminated)
        ++ flat (if line.isBlank then depth else line.depth) rest := by
  by_cases hblank : line.plain = []
  · rw [(Line.isBlank_iff h).mpr hblank, ofLine?, dif_pos hblank]
    rfl
  · have hfalse : line.isBlank = false := by
      rw [← Bool.not_eq_true, Line.isBlank_iff h]
      exact hblank
    rw [hfalse, ofLine?, dif_neg hblank]
    simp only [Bool.false_eq_true, if_false, lineTokens_eq depth h]
    rfl

theorem leading_of_error {count : Nat} {bytes : List UInt8} {e : LexError}
    (h : ofBytes count bytes = .error e) {rest : List (List UInt8)} :
    leading count (bytes :: rest) = ([], some e) := by
  rw [leading, h]

theorem leading_of_ok {count : Nat} {bytes : List UInt8} {found : Option CodeLine}
    (h : ofBytes count bytes = .ok found) {rest : List (List UInt8)} :
    leading count (bytes :: rest) =
      (found.toList ++ (leading (count + 1) rest).1, (leading (count + 1) rest).2) := by
  rw [leading, h]

theorem exists_of_leading_cons {count : Nat} {bytes : List UInt8}
    {rest : List (List UInt8)} {lines : List CodeLine}
    (h : leading count (bytes :: rest) = (lines, none)) :
    ∃ found lines',
      ofBytes count bytes = .ok found ∧ leading (count + 1) rest = (lines', none) ∧
      lines = found.toList ++ lines' := by
  cases hbytes : ofBytes count bytes with
  | error e =>
    rw [leading_of_error hbytes] at h
    cases h
  | ok found =>
    rw [leading_of_ok hbytes] at h
    obtain ⟨hlines, he⟩ := Prod.mk.inj h
    exact ⟨found, _, rfl, Prod.ext rfl he, hlines.symm⟩

theorem ofLines_of_error {count : Nat} {bytes : List UInt8} {e : LexError}
    (h : ofBytes count bytes = .error e) (depth : Nat) (rest : List (List UInt8)) :
    ∃ tail, Reading.ofLines depth count (bytes :: rest) = .fault e :: tail := by
  rw [Reading.ofLines]
  rw [ofBytes] at h
  cases htext : Source.decode? bytes with
  | none =>
    rw [htext] at h
    cases h
    exact ⟨_, rfl⟩
  | some text =>
    rw [htext] at h
    cases hline : Line.ofText text with
    | error cause =>
      simp only [hline] at h ⊢
      cases h
      exact ⟨_, rfl⟩
    | ok line =>
      simp only [hline] at h
      cases h

theorem exists_of_ofBytes {count : Nat} {bytes : List UInt8} {found : Option CodeLine}
    (h : ofBytes count bytes = .ok found) :
    ∃ text line, Source.decode? bytes = some text ∧
      Line.ofText text = .ok line ∧ found = ofLine? (count + 1) line := by
  rw [ofBytes] at h
  cases htext : Source.decode? bytes with
  | none =>
    rw [htext] at h
    cases h
  | some text =>
    rw [htext] at h
    cases hline : Line.ofText text with
    | error cause =>
      simp only [hline] at h
      cases h
    | ok line =>
      simp only [hline] at h
      cases h
      exact ⟨text, line, rfl, hline, rfl⟩

/-! The last token of a line is a newline mark if and only if the line has its line
feed. -/

theorem tokens_of_unterminated {bytes : List UInt8} {text : List Char} {line : Line}
    (htext : Source.decode? bytes = some text) (hline : Line.ofText text = .ok line)
    (hfeed : Source.lineFeed ∉ bytes) :
    line.tokens = line.plain ++ Line.endMark false := by
  refine Line.ofText_eq_ok (Source.newline_not_mem_of_decode? htext hfeed) ?_
  rw [Line.ending, if_neg Bool.false_ne_true, List.append_nil, hline]

theorem tokens_of_terminated {bytes : List UInt8} {text : List Char} {line : Line}
    (htext : Source.decode? (bytes ++ [Source.lineFeed]) = some text)
    (hline : Line.ofText text = .ok line) (hfeed : Source.lineFeed ∉ bytes) :
    line.tokens = line.plain ++ Line.endMark true := by
  obtain ⟨body, rfl, hbody⟩ := Source.exists_of_decode?_concat htext hfeed
  exact Line.ofText_eq_ok hbody hline

end CodeLine

namespace Source

/-- If the line can be read, its tokens end in a newline mark if and only if its bytes
end in a line feed. -/
def Marked (bytes : List UInt8) : Prop :=
  ∀ {text line}, decode? bytes = some text → Line.ofText text = .ok line →
    line.tokens = line.plain ++ Line.endMark (isTerminated bytes)

theorem Chopped.of_cons {bytes : List UInt8} {rest : List (List UInt8)}
    (h : Chopped (bytes :: rest)) :
    Marked bytes ∧ (isTerminated bytes = false → rest = []) ∧ Chopped rest := by
  cases h with
  | last _ hfeed =>
    refine ⟨?_, fun _ => rfl, .nil⟩
    intro text line htext hline
    rw [isTerminated_of_not_mem hfeed]
    exact CodeLine.tokens_of_unterminated htext hline hfeed
  | cons hfeed hrest =>
    refine ⟨?_, ?_, hrest⟩
    · intro text line htext hline
      rw [isTerminated_concat]
      exact CodeLine.tokens_of_terminated htext hline hfeed
    · intro hterminated
      rw [isTerminated_concat] at hterminated
      cases hterminated

/-- An induction over lines that does not ask of each whether it is the last. -/
@[elab_as_elim]
theorem Chopped.byLine {motive : List (List UInt8) → Prop} (nil : motive [])
    (cons : ∀ {bytes rest}, Marked bytes → (isTerminated bytes = false → rest = []) →
      Chopped rest → motive rest →
      motive (bytes :: rest)) {lines : List (List UInt8)}
      (h : Chopped lines) : motive lines := by
  induction lines with
  | nil => exact nil
  | cons bytes rest ih =>
    obtain ⟨hmarked, hlast, hrest⟩ := h.of_cons
    exact cons hmarked hlast hrest (ih hrest)

end Source

namespace CodeLine

open Reading (place layoutMarks lineTokens)

theorem ofLines_of_unterminated {count : Nat} {bytes : List UInt8}
    {found : Option CodeLine} (h : ofBytes count bytes = .ok found)
    (hfeed : Source.lineFeed ∉ bytes) (depth : Nat) :
    Reading.ofLines depth count [bytes] =
      flat depth found.toList ++ place (count + 1) [Token.eof] := by
  obtain ⟨text, line, htext, hline, rfl⟩ := exists_of_ofBytes h
  have hflat :=
    flat_ofLine? (count + 1) depth [] (tokens_of_unterminated htext hline hfeed)
  rw [List.append_nil] at hflat
  rw [Reading.ofLines, htext]
  simp only [hline, Source.isTerminated_of_not_mem hfeed, Bool.false_eq_true, if_false]
  rw [hflat, place_append]
  simp only [flat, List.append_nil]

theorem ofLines_of_terminated {count : Nat} {bytes : List UInt8} {found : Option CodeLine}
    (h : ofBytes count (bytes ++ [Source.lineFeed]) = .ok found)
    (hfeed : Source.lineFeed ∉ bytes) (depth : Nat) :
    ∃ depth', ∀ {rest lines tail},
      Reading.ofLines depth' (count + 1) rest = flat depth' lines ++ tail →
      Reading.ofLines depth count ((bytes ++ [Source.lineFeed]) :: rest) =
        flat depth (found.toList ++ lines) ++ tail := by
  obtain ⟨text, line, htext, hline, rfl⟩ := exists_of_ofBytes h
  have htokens := tokens_of_terminated htext hline hfeed
  refine ⟨if line.isBlank then depth else line.depth, ?_⟩
  intro rest lines tail hrest
  rw [Reading.ofLines, htext]
  simp only [hline, Source.isTerminated_concat, if_true]
  rw [hrest, flat_ofLine? (count + 1) depth lines htokens, List.append_assoc]

/-- The stream of physical lines is that of the lines with tokens, up to the first line
that cannot be read. -/
theorem ofLines_eq_flat {lines : List (List UInt8)} (hlines : Source.Chopped lines)
    (depth count : Nat) :
    ∃ tail,
      Reading.ofLines depth count lines = flat depth (leading count lines).1 ++ tail ∧
      Ends (leading count lines).2 tail := by
  induction hlines generalizing depth count with
  | nil => exact ⟨_, rfl, count + 1, rfl⟩
  | @last bytes _ hfeed =>
    cases hbytes : ofBytes count bytes with
    | error e =>
      obtain ⟨tail, htail⟩ := ofLines_of_error hbytes depth []
      rw [leading_of_error hbytes]
      exact ⟨_, htail, tail, rfl⟩
    | ok found =>
      rw [leading_of_ok hbytes]
      simp only [leading, List.append_nil]
      exact ⟨_, ofLines_of_unterminated hbytes hfeed depth, count + 1, rfl⟩
  | @cons bytes rest hfeed _ ih =>
    cases hbytes : ofBytes count (bytes ++ [Source.lineFeed]) with
    | error e =>
      obtain ⟨tail, htail⟩ := ofLines_of_error hbytes depth rest
      rw [leading_of_error hbytes]
      exact ⟨_, htail, tail, rfl⟩
    | ok found =>
      obtain ⟨depth', hstep⟩ := ofLines_of_terminated hbytes hfeed depth
      obtain ⟨tail, htail, hends⟩ := ih depth' (count + 1)
      rw [leading_of_ok hbytes]
      exact ⟨tail, hstep htail, hends⟩

end CodeLine

/-! ## Lines that are not blank

The same lines as they are seen in the text, before anything is known of depths. -/

/-- A physical line that is not blank: its number, how many spaces it begins with, and
its tokens. -/
structure ContentLine where
  number : Nat
  spaces : Nat
  tokens : List Token
deriving DecidableEq

/-- The physical line of that number, unless it is blank or cannot be read. -/
def ContentLine.ofBytes? (number : Nat) (bytes : List UInt8) : Option ContentLine :=
  match Source.decode? bytes with
  | none => none
  | some text =>
    match Line.ofText text with
    | .error _ => none
    | .ok line =>
      if line.isBlank then none else some ⟨number, Line.leadingSpaces text, line.plain⟩

/-- The lines of a source that are not blank. -/
def Source.contentLines (source : Source) : List ContentLine :=
  (source.physicalLines.zipIdx 1).filterMap fun line => ContentLine.ofBytes? line.2 line.1

/-- Whether a physical line can be read. -/
def Source.Readable (bytes : List UInt8) : Prop :=
  ∃ text line, decode? bytes = some text ∧ Line.ofText text = .ok line

/-- Of the tokens of a line that can be read only the last may be a mark. -/
theorem Source.Chopped.tokens_eq {lines : List (List UInt8)} (h : Source.Chopped lines)
    {bytes : List UInt8} (hmem : bytes ∈ lines) {text : List Char} {line : Line}
    (htext : Source.decode? bytes = some text) (hline : Line.ofText text = .ok line) :
    ∃ terminated, line.tokens = line.plain ++ Line.endMark terminated := by
  induction h with
  | nil => cases hmem
  | last _ hfeed =>
    obtain rfl := List.mem_singleton.mp hmem
    exact ⟨false, CodeLine.tokens_of_unterminated htext hline hfeed⟩
  | cons hfeed _ ih =>
    rcases List.mem_cons.mp hmem with rfl | hrest
    · exact ⟨true, CodeLine.tokens_of_terminated htext hline hfeed⟩
    · exact ih hrest

namespace CodeLine

/-- The line as it is seen in the text. -/
def content (line : CodeLine) : ContentLine :=
  ⟨line.number, Line.indentWidth * line.depth, line.tokens⟩

theorem ofBytes?_eq_map {count : Nat} {bytes : List UInt8} {found : Option CodeLine}
    (h : ofBytes count bytes = .ok found) {lines : List (List UInt8)}
    (hlines : Source.Chopped lines) (hmem : bytes ∈ lines) :
    ContentLine.ofBytes? (count + 1) bytes = found.map content := by
  obtain ⟨text, line, htext, hline, rfl⟩ := exists_of_ofBytes h
  obtain ⟨terminated, htokens⟩ := hlines.tokens_eq hmem htext hline
  have hspaces := Line.leadingSpaces_of_ofText hline
  simp only [ContentLine.ofBytes?, htext, hline, ofLine?]
  by_cases hplain : line.plain = []
  · rw [if_pos ((Line.isBlank_iff htokens).mpr hplain), dif_pos hplain]
    rfl
  · rw [if_neg (mt (Line.isBlank_iff htokens).mp hplain), dif_neg hplain, hspaces]
    rfl

/-- A line that is not blank has tokens. -/
theorem exists_of_content {number spaces : Nat} {tokens : List Token} {count : Nat}
    {bytes : List UInt8}
    (h : ContentLine.ofBytes? (count + 1) bytes = some ⟨number, spaces, tokens⟩)
    {lines : List (List UInt8)} (hlines : Source.Chopped lines) (hmem : bytes ∈ lines) :
    ∃ line : CodeLine, ofBytes count bytes = .ok (some line) ∧
      line.content = ⟨number, spaces, tokens⟩ := by
  obtain ⟨found, hfound⟩ : ∃ found, ofBytes count bytes = .ok found := by
    unfold ContentLine.ofBytes? at h
    split at h
    · cases h
    · next text htext =>
      split at h
      · cases h
      · next line hline =>
          exact ⟨ofLine? (count + 1) line, by simp only [ofBytes, htext, hline]⟩
  rw [ofBytes?_eq_map hfound hlines hmem] at h
  obtain ⟨line, rfl, hcontent⟩ := Option.map_eq_some_iff.mp h
  exact ⟨line, hfound, hcontent⟩

/-- Where all lines can be read, the lines with tokens are those that are not blank, and
two spaces make a level. -/
theorem contentLines_of_leading {whole physical : List (List UInt8)}
    (hwhole : Source.Chopped whole) (hsub : ∀ bytes ∈ physical, bytes ∈ whole)
    {count : Nat} {lines : List CodeLine} (h : leading count physical = (lines, none)) :
    (physical.zipIdx (count + 1)).filterMap
      (fun line => ContentLine.ofBytes? line.2 line.1) =
      lines.map content ∧ ∀ bytes ∈ physical, Source.Readable bytes := by
  induction physical generalizing count lines with
  | nil =>
    cases h
    exact ⟨rfl, fun _ hmem => absurd hmem List.not_mem_nil⟩
  | cons bytes rest ih =>
    obtain ⟨hbytes, hrest⟩ := List.forall_mem_cons.mp hsub
    obtain ⟨found, lines, hfound, hlines, rfl⟩ := exists_of_leading_cons h
    obtain ⟨hcontents, hreadable⟩ := ih hrest hlines
    obtain ⟨text, line, htext, hline, -⟩ := exists_of_ofBytes hfound
    refine ⟨?_, List.forall_mem_cons.mpr ⟨⟨text, line, htext, hline⟩, hreadable⟩⟩
    have hcontent := ofBytes?_eq_map hfound hwhole hbytes
    rw [List.zipIdx_cons, List.map_append, ← hcontents, List.filterMap_cons, hcontent]
    cases found <;> rfl

end CodeLine

end Mint
