import Mint.Proofs.Concatenation
import Mint.Proofs.Parser.Renumbering
import Mint.Proofs.Printing.Rows
import Mint.Proofs.Spacing

/-!
# Lines without meaning

A line of spaces, with or without a comment, can be put in between any two lines of a
source, at its start and at its end. If the spaces make whole levels, the source is read
as before, and an error further down moves down with its line; otherwise the new line is
the error. Nor does it matter to an accepted source whether its last line is closed
(`Program.blank_lines_carry_no_meaning`).
-/

namespace Mint

/-! ## Streams with a line put in -/

namespace Reading

variable {number : Nat → Nat}

/-- The reading with the number of its line changed. -/
def renumber (number : Nat → Nat) : Reading → Reading
  | token lexeme => token (lexeme.renumber number)
  | fault e => fault (e.renumber number)

theorem map_renumber_place (number : Nat → Nat) (n : Nat) (tokens : List Token) :
    (place n tokens).map (renumber number) = place (number n) tokens := by
  rw [place, place, List.map_map]
  rfl

/-- Lines that are counted one higher are reported one higher. -/
theorem ofLines_succ (depth count : Nat) (lines : List (List UInt8)) :
    ofLines depth (count + 1) lines =
      (ofLines depth count lines).map (renumber Nat.succ) := by
  induction lines generalizing depth count with
  | nil => rfl
  | cons bytes rest ih =>
    rw [ofLines, ofLines]
    cases Source.decode? bytes with
    | none =>
      simp only [ih]
      rfl
    | some text =>
      cases hline : Line.ofText text with
      | error cause =>
        simp only [hline, ih]
        rfl
      | ok line =>
        simp only [hline]
        split
        · rw [List.map_append, map_renumber_place, ih]
        · rw [map_renumber_place]

theorem renumbers_map {number' : Nat → Nat} {readings : List Reading}
    (h : ∀ reading ∈ readings, number' reading.line = number reading.line) :
    Renumbers number readings (readings.map (renumber number')) := by
  induction readings with
  | nil => exact .nil
  | cons reading readings ih =>
    obtain ⟨hreading, hreadings⟩ := List.forall_mem_cons.mp h
    rw [List.map_cons]
    cases reading with
    | token lexeme =>
      rw [renumber, Lexeme.renumber,
        show number' lexeme.line = number lexeme.line from hreading]
      exact .token (ih hreadings)
    | fault e =>
      rw [renumber, LexError.renumber, show number' e.line = number e.line from hreading]
      exact .fault

theorem renumbers_place {n : Nat} (hn : number n = n) (tokens : List Token)
    {rest rest' : List Reading} (h : Renumbers number rest rest') :
    Renumbers number (place n tokens ++ rest) (place n tokens ++ rest') := by
  induction tokens with
  | nil => exact h
  | cons token tokens ih =>
    have hlexeme : (⟨token, n⟩ : Lexeme).renumber number = ⟨token, n⟩ := by
      rw [Lexeme.renumber, hn]
    have htoken : Renumbers number _ (.token (Lexeme.renumber number ⟨token, n⟩) :: _) :=
      .token ih
    rw [hlexeme] at htoken
    exact htoken

/-- Streams that differ behind some lines, when the lines up to there keep their
numbers. -/
theorem renumbers_ofLines {front post post' : List (List UInt8)}
    (h : Source.Chopped (front ++ post)) {count : Nat}
    (hnumber : ∀ n ≤ count + front.length, number n = n)
    (hpost : ∀ depth, Renumbers number (ofLines depth (count + front.length) post)
      (ofLines depth (count + front.length) post')) (depth : Nat) :
    Renumbers number (ofLines depth count (front ++ post))
      (ofLines depth count (front ++ post')) := by
  induction front generalizing depth count with
  | nil => exact hpost depth
  | cons bytes front ih =>
    obtain ⟨hmarked, -, hrest⟩ := h.of_cons
    rw [List.length_cons, Nat.add_comm front.length, ← Nat.add_assoc] at hnumber hpost
    have hfirst : number (count + 1) = count + 1 := hnumber _ (Nat.le_add_right _ _)
    cases firstLine depth count hmarked with
    | fault e count' hline _ h =>
      -- behind the error the two need not correspond
      have he : e.renumber number = e := by rw [LexError.renumber, hline, hfirst, ← hline]
      have hfault : Renumbers number (.fault e :: ofLines depth count' (front ++ post))
        (.fault (e.renumber number) :: ofLines depth count' (front ++ post')) := .fault
      rw [List.cons_append, List.cons_append, h, h]
      rwa [he] at hfault
    | line tokens depth' _ h =>
      rw [List.cons_append, List.cons_append, h, h]
      exact renumbers_place hfirst tokens (ih hrest hnumber hpost depth')
    | last tokens _ h =>
      have hplace := renumbers_place hfirst (tokens ++ [Token.eof]) .nil
      rw [List.append_nil] at hplace
      rw [List.cons_append, List.cons_append, h, h]
      exact hplace

end Reading

/-! ## Blank lines -/

namespace Line

/-- A line without tokens, if its spaces make whole levels. -/
theorem ofText_lineEnd (spaces : Nat) {comment : Option (List Char)}
    (h : ∀ text ∈ comment, '\n' ∉ text) :
    ofText (lineEnd spaces comment) =
      if spaces % indentWidth ≠ 0 then .error (.oddIndent spaces)
      else .ok ⟨spaces / indentWidth, [Token.newline]⟩ := by
  have hspaces :
    (commentText comment ++ ['\n']).takeWhile (· == ' ') = [] := by cases comment <;> rfl
  rw [lineEnd, List.append_assoc, ofText_indented spaces hspaces, scan_comment h]
  rfl

end Line

namespace Source

/-- The bytes of a line that has spaces and perhaps a comment. -/
def blankLine (spaces : Nat) (comment : Option (List Char)) : List UInt8 :=
  encode (Line.lineEnd spaces comment)

/-- The number of a line when another one has been put in behind the first `n`. -/
def movedNumber (n number : Nat) : Nat := if number ≤ n then number else number + 1

theorem Chopped.length_eq {lines : List (List UInt8)} (h : Chopped lines)
    (hclosed : lines.flatten = [] ∨ lines.flatten.getLast? = some lineFeed) :
    lines.length = lines.flatten.count lineFeed := by
  induction h with
  | nil => rfl
  | last hne hfeed =>
    rw [List.flatten_cons, List.flatten_nil, List.append_nil] at hclosed
    rcases hclosed with hnil | hlast
    · exact absurd hnil hne
    · exact absurd (List.mem_of_getLast? hlast) hfeed
  | @cons line rest hfeed _ ih =>
    have hrest : rest.flatten = [] ∨ rest.flatten.getLast? = some lineFeed := by
      rw [List.flatten_cons, List.getLast?_append, List.getLast?_concat] at hclosed
      cases hlast : rest.flatten.getLast? with
      | none => exact .inl (List.getLast?_eq_none_iff.mp hlast)
      | some b =>
        rw [hlast] at hclosed
        rcases hclosed with hnil | hclosed
        · simp at hnil
        · exact .inr hclosed
    rw [List.length_cons, ih hrest, List.flatten_cons, List.count_append,
      List.count_append, List.count_eq_zero_of_not_mem hfeed, List.count_singleton_self]
    omega

/-- Where lines are closed there are as many of them as line feeds. -/
theorem length_cut {bytes : List UInt8}
    (h : bytes = [] ∨ bytes.getLast? = some lineFeed) :
    (cut bytes).length = bytes.count lineFeed := by
  have hlength := (chopped_cut bytes).length_eq
  rw [flatten_cut] at hlength
  exact hlength h

variable (spaces : Nat) {comment : Option (List Char)}
  (hcomment : ∀ text ∈ comment, '\n' ∉ text)

include hcomment

theorem blankLine_eq :
    ∃ line, blankLine spaces comment = line ++ [lineFeed] ∧ lineFeed ∉ line := by
  refine ⟨encode (List.replicate spaces ' ' ++ Line.commentText comment),
    encode_concat_newline _, ?_⟩
  refine lineFeed_not_mem_encode fun hmem => ?_
  rcases List.mem_append.mp hmem with hspace | htext
  · cases List.eq_of_mem_replicate hspace
  · cases comment with
    | none => cases htext
    | some text =>
      rcases List.mem_cons.mp htext with heq | hmem
      · cases heq
      · exact hcomment text rfl hmem

/-- Between two lines it is cut by itself. -/
theorem cut_blankLine {before : List UInt8}
    (hbefore : before = [] ∨ before.getLast? = some lineFeed) (after : List UInt8) :
    cut (before ++ blankLine spaces comment ++ after) =
      cut before ++ blankLine spaces comment :: cut after := by
  obtain ⟨line, hline, hfeed⟩ := blankLine_eq spaces hcomment
  rw [hline, List.append_assoc, cut_append hbefore,
    cut_append (.inr List.getLast?_concat), cut_concat hfeed]
  rfl

end Source

section

variable {spaces : Nat} {comment : Option (List Char)}
  (hcomment : ∀ text ∈ comment, '\n' ∉ text)

include hcomment

/-- A blank line adds nothing but its number. -/
theorem Reading.ofLines_blankLine (heven : spaces % 2 = 0) (depth count : Nat)
    (rest : List (List UInt8)) :
    ofLines depth count (Source.blankLine spaces comment :: rest) =
      ofLines depth (count + 1) rest := by
  obtain ⟨line, hline, -⟩ := Source.blankLine_eq spaces hcomment
  have hterminated : Source.isTerminated (Source.blankLine spaces comment) = true := by
    rw [hline, Source.isTerminated_concat]
  have hread :
      Line.ofText (Line.lineEnd spaces comment) = .ok ⟨spaces / 2, [Token.newline]⟩ := by
    rw [Line.ofText_lineEnd spaces hcomment, Line.indentWidth, if_neg (by omega)]
  rw [ofLines, hterminated, Source.blankLine, Source.decode?_encode]
  simp only [hread]
  rfl

theorem CodeLine.ofBytes_blankLine (hodd : spaces % 2 = 1) (count : Nat) :
    ofBytes count (Source.blankLine spaces comment) =
      .error ⟨count + 1, .scan (.oddIndent spaces)⟩ := by
  have hread :
      Line.ofText (Line.lineEnd spaces comment) = .error (.oddIndent spaces) := by
    rw [Line.ofText_lineEnd spaces hcomment, Line.indentWidth, if_pos (by omega)]
  rw [ofBytes, Source.blankLine, Source.decode?_encode]
  simp only [hread]

/-- Where a blank line is put in, the stream moves down. -/
theorem Source.renumbers_blankLine (heven : spaces % 2 = 0) {before : List UInt8}
    (hbefore : before = [] ∨ before.getLast? = some lineFeed) (after : List UInt8) :
    Renumbers (movedNumber (before.count lineFeed)) (Source.mk (before ++ after)).readings
      (Source.mk (before ++ blankLine spaces comment ++ after)).readings := by
  have hchopped := chopped_cut (before ++ after)
  rw [readings, readings, physicalLines, physicalLines,
    cut_blankLine spaces hcomment hbefore]
  rw [cut_append hbefore] at hchopped ⊢
  rw [← length_cut hbefore]
  refine Reading.renumbers_ofLines hchopped (fun n hn => if_pos ?_) (fun depth => ?_) 0
  · rwa [Nat.zero_add] at hn
  · -- from the new line on everything is counted one higher, and all of it is behind the
    -- place where it was put in
    rw [Nat.zero_add, Reading.ofLines_blankLine hcomment heven, Reading.ofLines_succ]
    refine Reading.renumbers_map fun reading hreading => ?_
    have hline := Reading.lt_line_of_ofLines (chopped_cut after) _ _ reading hreading
    exact (if_neg (Nat.not_le_of_lt hline)).symm

end

/-! ## Lines that cannot be read -/

namespace Cursor

/-- Before the cursor there are tokens on lines up to `limit`, and then the error of a
line. -/
def Stops (limit : Nat) (e : LexError) (c : Cursor) : Prop :=
  ∃ (lexemes : List Lexeme) (rest : List Reading),
    c.stream = lexemes.map .token ++ .fault e :: rest ∧
    ∀ lexeme ∈ lexemes, lexeme.line ≤ limit

variable {limit : Nat} {e : LexError} {c c' : Cursor}

theorem Stops.cases (h : c.Stops limit e) : c.line ≤ limit ∧
    ((∃ rest, c.ahead = .fault e :: rest) ∨
      ∃ lexeme ahead, c.ahead = .token lexeme :: ahead ∧
        Stops limit e ⟨c.current :: c.passed, lexeme, ahead⟩) := by
  obtain ⟨lexemes, rest, hstream, hlimit⟩ := h
  cases lexemes with
  | nil => cases hstream
  | cons first lexemes =>
    obtain ⟨hfirst, hlexemes⟩ := List.forall_mem_cons.mp hlimit
    obtain ⟨hcurrent, hahead⟩ := List.cons.inj hstream
    cases hcurrent
    refine ⟨hfirst, ?_⟩
    cases lexemes with
    | nil => exact .inl ⟨rest, hahead⟩
    | cons lexeme lexemes =>
      exact .inr ⟨lexeme, _, hahead, lexeme :: lexemes, rest, rfl, hlexemes⟩

theorem Stops.reaches (h : c.Stops limit e) (hreaches : c.Reaches c') :
    c'.Stops limit e := by
  induction hreaches with
  | refl => exact h
  | next hnext _ ih =>
    refine ih ?_
    rcases h.cases.2 with ⟨rest, hahead⟩ | ⟨lexeme, ahead, hahead, hstops⟩
    · rw [Cursor.next, hahead] at hnext
      cases hnext
    · rw [Cursor.next, hahead] at hnext
      cases hnext
      exact hstops

end Cursor

/-- Before a line that cannot be read, an error is on an earlier line or it is that of
the line. -/
theorem Reported.of_stops {limit : Nat} {e : LexError} {c c' : Cursor}
    {error : ParseError} (h : Reported c error c') (hstops : c.Stops limit e) :
    error.line ≤ limit ∨ error = .lexical e := by
  cases h with
  | here hreaches hline =>
    rw [hline]
    exact .inl (hstops.reaches hreaches).cases.1
  | fault hreaches hnext =>
    rcases (hstops.reaches hreaches).cases.2 with
      ⟨rest, hahead⟩ | ⟨lexeme, ahead, hahead, -⟩
    · rw [Cursor.next, hahead] at hnext
      cases hnext
      exact .inr rfl
    · rw [Cursor.next, hahead] at hnext
      cases hnext

namespace CodeLine

theorem number_le_of_leading {lines : List (List UInt8)} {count : Nat}
    {found : List CodeLine} (h : leading count lines = (found, none)) :
    ∀ line ∈ found, line.number ≤ count + lines.length := by
  induction lines generalizing count found with
  | nil =>
    cases h
    exact fun _ hmem => absurd hmem List.not_mem_nil
  | cons bytes lines ih =>
    obtain ⟨first, others, hbytes, hlines, rfl⟩ := exists_of_leading_cons h
    obtain ⟨text, line, -, -, rfl⟩ := exists_of_ofBytes hbytes
    rw [List.length_cons, Nat.add_comm lines.length, ← Nat.add_assoc]
    refine List.forall_mem_append.mpr ⟨fun found hmem => ?_, ih hlines⟩
    rw [ofLine?] at hmem
    split at hmem
    · cases hmem
    · obtain rfl := List.mem_singleton.mp hmem
      exact Nat.le_add_right _ _

theorem exists_lexemes (depth : Nat) (lines : List CodeLine) :
    ∃ lexemes : List Lexeme, flat depth lines = lexemes.map .token ∧
      ∀ lexeme ∈ lexemes, ∃ line ∈ lines, lexeme.line = line.number := by
  induction lines generalizing depth with
  | nil => exact ⟨[], rfl, by simp⟩
  | cons line lines ih =>
    obtain ⟨lexemes, hflat, hlexemes⟩ := ih line.depth
    rw [flat, hflat]
    generalize Reading.layoutMarks depth line.depth ++ line.tokens ++ [Token.newline] =
      tokens
    refine ⟨tokens.map (⟨·, line.number⟩) ++ lexemes, ?_,
      List.forall_mem_append.mpr ⟨?_, ?_⟩⟩
    · rw [List.map_append, List.map_map]
      rfl
    · intro lexeme hmem
      obtain ⟨token, -, rfl⟩ := List.mem_map.mp hmem
      exact ⟨line, List.mem_cons_self, rfl⟩
    · intro lexeme hmem
      obtain ⟨line', hline', heq⟩ := hlexemes lexeme hmem
      exact ⟨line', List.mem_cons_of_mem _ hline', heq⟩

end CodeLine

namespace Program

/-- Where a line cannot be read, parsing fails there or on a line above. -/
theorem exists_failed_of_leading {source : Source} {lines : List CodeLine} {e : LexError}
    (h : CodeLine.leading 0 source.physicalLines = (lines, some e)) {limit : Nat}
    (hlimit : ∀ line ∈ lines, line.number ≤ limit) :
    ∃ error,
      parse source = .failed error ∧ (error.line ≤ limit ∨ error = .lexical e) := by
  obtain ⟨lexemes, hflat, hlexemes⟩ := CodeLine.exists_lexemes 0 lines
  obtain ⟨tail, hreadings, hends⟩ :=
    CodeLine.ofLines_eq_flat (Source.chopped_cut source.bytes) 0 0
  rw [← Source.physicalLines, h] at hreadings hends
  obtain ⟨rest, rfl⟩ := hends
  rw [← Source.readings, hflat] at hreadings
  cases hparse : parse source with
  | starved => exact absurd hparse (parse_ne_starved source)
  | done program =>
    obtain ⟨lines', hlines', -⟩ := parse_eq_done_iff.mp hparse
    rw [Lines, h] at hlines'
    cases hlines'
  | failed error =>
    refine ⟨error, rfl, ?_⟩
    rw [parse, Cursor.ofSource, hreadings] at hparse
    cases lexemes with
    | nil =>
      cases hparse
      exact .inr rfl
    | cons first lexemes =>
      have hlinked :
          Linked (Cursor.stream ⟨[], first, lexemes.map .token ++ .fault e :: rest⟩) := by
        have hlinked := linked_readings source
        rwa [hreadings] at hlinked
      obtain ⟨s, hfailed⟩ := ofCursor_eq_failed_iff.mp hparse
      have hreported := (runs_statements hlinked).failed hfailed
      refine hreported.of_stops ⟨first :: lexemes, rest, rfl, fun lexeme hmem => ?_⟩
      obtain ⟨line, hline, hnumber⟩ := hlexemes lexeme hmem
      rw [hnumber]
      exact hlimit line hline

theorem parse_with_oddLine {before : List UInt8}
    (hbefore : before = [] ∨ before.getLast? = some Source.lineFeed) (after : List UInt8)
    {spaces : Nat} (hodd : spaces % 2 = 1) {comment : Option (List Char)}
    (hcomment : ∀ text ∈ comment, '\n' ∉ text) {program : Program}
    (h : parse ⟨before ++ after⟩ = .done program) :
    parse ⟨before ++ Source.blankLine spaces comment ++ after⟩ =
      .failed
        (.lexical ⟨before.count Source.lineFeed + 1, .scan (.oddIndent spaces)⟩) := by
  have hcut : Source.cut (before ++ after) = _ := Source.cut_append hbefore
  have hcut' := Source.cut_blankLine spaces hcomment hbefore after
  obtain ⟨lines, hlines, -⟩ := parse_eq_done_iff.mp h
  rw [Lines, Source.physicalLines, hcut] at hlines
  obtain ⟨first, others, hfirst, -, -⟩ := CodeLine.exists_of_leading_append hlines
  have hleading : CodeLine.leading 0
      (Source.mk (before ++ Source.blankLine spaces comment ++ after)).physicalLines =
      (first, some ⟨(Source.cut before).length + 1, .scan (.oddIndent spaces)⟩) := by
    rw [Source.physicalLines, hcut', ← List.append_nil first]
    refine CodeLine.leading_append hfirst (CodeLine.leading_of_error ?_)
    rw [Nat.zero_add, CodeLine.ofBytes_blankLine hcomment hodd]
  obtain ⟨error, hfailed, hearlier | rfl⟩ :=
    exists_failed_of_leading hleading (CodeLine.number_le_of_leading hfirst)
  · -- an error above the line would be one of the source without the line
    exfalso
    rw [Nat.zero_add] at hearlier
    have hsame : parse ⟨before ++ after⟩ = .failed error := by
      refine parse_of_take_eq ?_ ?_ hfailed
      · rw [Source.physicalLines, hcut', List.length_append]
        omega
      · rw [Source.physicalLines, Source.physicalLines, hcut, hcut',
          List.take_append_of_le_length hearlier, List.take_append_of_le_length hearlier]
    rw [h] at hsame
    cases hsame
  · rw [hfailed, Source.length_cut hbefore]

end Program

/-! ## The last line break -/

namespace Line

theorem takeWhile_concat_newline {p : Char → Bool} (hp : p '\n' = false)
    (text : List Char) :
    (text ++ ['\n']).takeWhile p = text.takeWhile p := by
  induction text with
  | nil => simp [hp]
  | cons c text ih => rw [List.cons_append, List.takeWhile_cons, List.takeWhile_cons, ih]

theorem stringLiteral_append {quote : Char} {text value : List Char} {taken : Nat}
    (h : stringLiteral quote text = .ok (value, taken)) (more : List Char) :
    stringLiteral quote (text ++ more) = .ok (value, taken) := by
  fun_induction stringLiteral quote text generalizing value taken with
  | case1 => cases h
  | case2 rest =>
    rw [List.cons_append, stringLiteral.eq_def]
    simpa using h
  | case3 => cases h
  | case4 => cases h
  | case5 e rest value' hvalue hne ih =>
    obtain ⟨⟨value'', taken'⟩, hrest, heq⟩ := exists_of_map_eq_ok h
    cases heq
    rw [List.cons_append, List.cons_append, stringLiteral, if_neg hne, if_pos rfl]
    simp only [hvalue, ih hrest]
    rfl
  | case6 => cases h
  | case7 c rest hne hslash hbreak ih =>
    obtain ⟨⟨value', taken'⟩, hrest, heq⟩ := exists_of_map_eq_ok h
    cases heq
    rw [List.cons_append, stringLiteral.eq_def]
    simp only [if_neg hne, if_neg hslash, if_neg hbreak, ih hrest]
    rfl

theorem symbol_concat_newline (c : Char) (rest : List Char) :
    symbol c (rest ++ ['\n']) = symbol c rest := by
  unfold symbol
  cases Relation.ofLead? c with
  | none => cases rest <;> rfl
  | some r =>
    cases rest with
    | nil => rfl
    | cons d rest =>
      by_cases hd : d = '='
      · subst hd
        rfl
      · simp [hd]

/-- A line break behind the text takes part in no token of it. -/
theorem lexeme_concat_newline {c : Char} {rest : List Char} {found : Option Token × Nat}
    (h : lexeme c rest = .ok found) : lexeme c (rest ++ ['\n']) = .ok found := by
  unfold lexeme at h ⊢
  rw [takeWhile_concat_newline rfl, takeWhile_concat_newline rfl,
    takeWhile_concat_newline rfl, symbol_concat_newline]
  split at h
  · next hspace => rwa [if_pos hspace]
  · next hspace =>
    rw [if_neg hspace]
    split at h
    · next hcomment => rwa [if_pos hcomment]
    · next hcomment =>
      rw [if_neg hcomment]
      split at h
      · next hquote =>
        obtain ⟨⟨text, taken⟩, hliteral, rfl⟩ := exists_of_map_eq_ok h
        rw [if_pos hquote, stringLiteral_append hliteral]
        rfl
      · next hquote => rwa [if_neg hquote]

theorem scan_concat_newline {body : List Char} (hbody : '\n' ∉ body) {skip : Nat}
    (hskip : skip ≤ room body) {tokens : List Token} (h : scan skip body = .ok tokens) :
    scan skip (body ++ ['\n']) = .ok (tokens ++ [Token.newline]) := by
  induction body generalizing skip tokens with
  | nil =>
    obtain rfl := Nat.le_zero.mp hskip
    cases h
    rfl
  | cons c rest ih =>
    obtain ⟨hc, hrest⟩ := not_or.mp (mt List.mem_cons.mpr hbody)
    cases skip with
    | succ skip =>
      rw [room_cons rest (Ne.symm hc)] at hskip
      exact ih hrest (Nat.le_of_succ_le_succ hskip) h
    | zero =>
      rw [scan, if_neg (Ne.symm hc)] at h
      obtain ⟨⟨token, taken⟩, hlexeme, h⟩ := exists_of_bind_eq_ok h
      obtain ⟨tokens', hscan, heq⟩ := exists_of_bind_eq_ok h
      cases heq
      rw [List.cons_append, scan, if_neg (Ne.symm hc), lexeme_concat_newline hlexeme]
      show (scan taken (rest ++ ['\n']) >>= fun tokens =>
        pure (token.toList ++ tokens)) = _
      rw [ih hrest (lexeme_taken hlexeme).1 hscan, List.append_assoc]
      rfl

theorem ofText_concat_newline {text : List Char} (htext : '\n' ∉ text) {line : Line}
    (h : ofText text = .ok line) :
    ofText (text ++ ['\n']) = .ok ⟨line.depth, line.tokens ++ [Token.newline]⟩ := by
  have hspaces : (text.takeWhile (· == ' ')).length ≤ text.length :=
    (List.takeWhile_sublist _).length_le
  simp only [ofText] at h ⊢
  rw [takeWhile_concat_newline rfl, List.drop_append_of_le_length hspaces]
  split at h
  · cases h
  · next heven =>
    obtain ⟨tokens, hscan, heq⟩ := exists_of_bind_eq_ok h
    cases heq
    rw [if_neg heven, scan_concat_newline (fun hmem => htext (List.mem_of_mem_drop hmem))
      (Nat.zero_le _) hscan]
    rfl
end Line

namespace CodeLine

/-- A line that is closed has the same tokens. -/
theorem ofBytes_concat {count : Nat} {bytes : List UInt8} {found : Option CodeLine}
    (h : ofBytes count bytes = .ok found) (hfeed : Source.lineFeed ∉ bytes) :
    ofBytes count (bytes ++ [Source.lineFeed]) = .ok found := by
  obtain ⟨text, line, htext, hline, rfl⟩ := exists_of_ofBytes h
  have hclosed :=
    Line.ofText_concat_newline (Source.newline_not_mem_of_decode? htext hfeed) hline
  have hbytes : bytes ++ [Source.lineFeed] = Source.encode (text ++ ['\n']) := by
    rw [Source.encode_concat_newline, Source.encode, ← Source.bytes_of_decode? htext]
  have hplain : (⟨line.depth, line.tokens ++ [Token.newline]⟩ : Line).plain =
      line.plain := by
    rw [Line.plain, List.filter_append]
    exact List.append_nil _
  rw [ofBytes, hbytes, Source.decode?_encode]
  simp only [hclosed, ofLine?, hplain]

theorem leading_cut_concat {lines : List (List UInt8)} (hlines : Source.Chopped lines)
    {count : Nat} {found : List CodeLine} (h : leading count lines = (found, none)) :
    leading count (Source.cut (lines.flatten ++ [Source.lineFeed])) = (found, none) := by
  induction hlines generalizing count found with
  | nil =>
    cases h
    rfl
  | @last line _ hfeed =>
    obtain ⟨first, others, hfirst, hnil, rfl⟩ := exists_of_leading_cons h
    cases hnil
    rw [List.flatten_cons, List.flatten_nil, List.append_nil, Source.cut_concat hfeed,
      leading_of_ok (ofBytes_concat hfirst hfeed)]
    rfl
  | @cons line rest hfeed _ ih =>
    obtain ⟨first, others, hfirst, hothers, rfl⟩ := exists_of_leading_cons h
    rw [List.flatten_cons, List.append_assoc,
      Source.cut_append (.inr List.getLast?_concat), Source.cut_concat hfeed,
      List.singleton_append, leading_of_ok hfirst, ih hothers]

end CodeLine

namespace Program

theorem parse_concat_lineFeed {source : Source} {program : Program}
    (h : parse source = .done program) :
    parse ⟨source.bytes ++ [Source.lineFeed]⟩ = .done program := by
  obtain ⟨lines, hlines, hblock⟩ := parse_eq_done_iff.mp h
  refine parse_eq_done_iff.mpr ⟨lines, ?_, hblock⟩
  have hclosed := CodeLine.leading_cut_concat (Source.chopped_cut source.bytes) hlines
  rwa [Source.flatten_cut] at hclosed

/-- For any source and any place in it where a line begins, a line of spaces and perhaps
a comment can be put in there. If the number of spaces is even, parsing gives the same
program, or the same error, one line further down if it was below the new line. If it is
odd, and the source was accepted, parsing fails on the new line. Besides, an accepted
source may have a line feed more at its end. -/
theorem blank_lines_carry_no_meaning :
    (∀ (before after : List UInt8) (spaces : Nat) (comment : Option (List Char)),
      (before = [] ∨ before.getLast? = some Source.lineFeed) →
      (∀ text ∈ comment, '\n' ∉ text) →
      (spaces % 2 = 0 →
        (∃ program, parse ⟨before ++ after⟩ = .done program ∧
          parse ⟨before ++ Source.blankLine spaces comment ++ after⟩ = .done program) ∨
        ∃ error, parse ⟨before ++ after⟩ = .failed error ∧
          parse ⟨before ++ Source.blankLine spaces comment ++ after⟩ =
            .failed
              (error.renumber (Source.movedNumber (before.count Source.lineFeed)))) ∧
      (spaces % 2 = 1 → ∀ program, parse ⟨before ++ after⟩ = .done program →
        parse ⟨before ++ Source.blankLine spaces comment ++ after⟩ =
          .failed
            (.lexical ⟨before.count Source.lineFeed + 1, .scan (.oddIndent spaces)⟩))) ∧
    ∀ (source : Source) (program : Program), parse source = .done program →
      parse ⟨source.bytes ++ [Source.lineFeed]⟩ = .done program := by
  refine ⟨fun before after spaces comment hbefore hcomment =>
    ⟨fun heven => ?_, fun hodd program h => ?_⟩,
    fun source program h => parse_concat_lineFeed h⟩
  · have hmoved :=
      parse_of_renumbers (Source.renumbers_blankLine hcomment heven hbefore after)
    cases hparse : parse ⟨before ++ after⟩ with
    | starved => exact absurd hparse (parse_ne_starved _)
    | done program =>
      rw [hparse] at hmoved
      exact .inl ⟨program, rfl, hmoved⟩
    | failed error =>
      rw [hparse] at hmoved
      exact .inr ⟨error, rfl, hmoved⟩
  · exact parse_with_oddLine hbefore after hodd hcomment h

/-- A conditional up to its alternative. -/
def beforeElse : List UInt8 := (Source.ofString "if a:\n  b = 1\n").bytes

/-- The alternative, on lines of which the last is not closed. -/
def elseLines : List UInt8 := (Source.ofString "else:\n  b = 2").bytes

/-- An alternative with an error in its second line. -/
def elseLinesWithCall : List UInt8 := (Source.ofString "else:\n  b = c(2)\n").bytes

/-- What the conditional is read as. -/
def elseProgram : Program where
  statements := [.ifElse (.path ["a"]) (.block [.assign "b" (.lit (.number 1))])
    (.block [.assign "b" (.lit (.number 2))])]
  classes := ∅

theorem blank_lines_carry_no_meaning_else :
    Source.blankLine 4 (some " é".toList) = (Source.ofString "    # é\n").bytes ∧
    parse ⟨beforeElse ++ elseLines⟩ = .done elseProgram ∧
    parse ⟨beforeElse ++ Source.blankLine 4 (some " é".toList) ++ elseLines⟩ =
      .done elseProgram ∧
    parse ⟨beforeElse ++ Source.blankLine 3 none ++ elseLines⟩ =
      .failed (.lexical ⟨3, .scan (.oddIndent 3)⟩) ∧
    parse ⟨beforeElse ++ elseLines ++ [Source.lineFeed]⟩ = .done elseProgram ∧
    parse ⟨beforeElse ++ elseLinesWithCall⟩ =
      .failed (.grammatical 4 (.unknownCallee "c")) ∧
    parse ⟨beforeElse ++ Source.blankLine 4 (some " é".toList) ++ elseLinesWithCall⟩ =
      .failed (.grammatical 5 (.unknownCallee "c")) := by
  obtain ⟨hinserted, hclosed⟩ := blank_lines_carry_no_meaning
  have hline : Source.blankLine 4 (some " é".toList) =
    (Source.ofString "    # é\n").bytes := by decide +kernel
  have hbefore : beforeElse.getLast? = some Source.lineFeed := by decide +kernel
  have hfeeds : beforeElse.count Source.lineFeed = 2 := by decide +kernel
  have hcomment : ∀ text ∈ some " é".toList, '\n' ∉ text := by decide +kernel
  have hparse : parse ⟨beforeElse ++ elseLines⟩ = .done elseProgram := by decide +kernel
  have hfailed : parse ⟨beforeElse ++ elseLinesWithCall⟩ =
      .failed (.grammatical 4 (.unknownCallee "c")) := by
    decide +kernel
  have hodd :=
    (hinserted beforeElse elseLines 3 none (.inr hbefore) (by simp)).2 rfl _ hparse
  rw [hfeeds] at hodd
  refine ⟨hline, hparse, ?_, hodd, hclosed _ _ hparse, hfailed, ?_⟩
  · rcases (hinserted beforeElse elseLines 4 _ (.inr hbefore) hcomment).1 rfl with
      ⟨program, h, h'⟩ | ⟨error, h, -⟩
    · cases hparse.symm.trans h
      exact h'
    · cases hparse.symm.trans h
  · rcases (hinserted beforeElse elseLinesWithCall 4 _ (.inr hbefore) hcomment).1 rfl with
      ⟨program, h, -⟩ | ⟨error, h, h'⟩
    · cases hfailed.symm.trans h
    · cases hfailed.symm.trans h
      rw [hfeeds] at h'
      exact h'

end Program

end Mint
