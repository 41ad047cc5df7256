import Mint.Proofs.Lexer
import Mint.Proofs.Parser.Locality
import Mint.Program

/-!
# Where parsing fails

An error names a line, and that is the last line that was read when it was found. What
stands behind that line has no part in it: every source with the same lines up to there
fails with the same error (`Program.failure_is_local`).

Three things come together. The parser has enough fuel for any source and reports errors
on the line of its token (`Runs`), the lexer has read no further than that line
(`Lexer.Level`), and as long as the parser has not gone beyond what two sources share it
does the same on both (`Local`).
-/

namespace Mint

/-! ## Streams line by line -/

namespace Reading

/-- The tokens that a line adds end in a newline mark, if there are any. -/
def Closes (tokens : List Token) : Prop :=
  tokens = [] ∨ ∃ inner, tokens = inner ++ [Token.newline] ∧ Token.eof ∉ inner

/-- What a physical line adds to the stream, whatever comes behind it: an error, tokens,
or tokens and the end of the input. -/
inductive FirstLine (depth count : Nat) (bytes : List UInt8) : Prop where
  | fault (e : LexError) (count' : Nat) (hline : e.line = count + 1)
    (hcount : count ≤ count') (h : ∀ rest,
      ofLines depth count (bytes :: rest) = .fault e :: ofLines depth count' rest)
  | line (tokens : List Token) (depth' : Nat) (htokens : Closes tokens)
    (h : ∀ rest, ofLines depth count (bytes :: rest) =
      place (count + 1) tokens ++ ofLines depth' (count + 1) rest)
  | last (tokens : List Token) (htokens : Closes tokens)
    (h : ∀ rest,
      ofLines depth count (bytes :: rest) = place (count + 1) (tokens ++ [Token.eof]))

theorem eof_not_mem_inner (depth : Nat) (line : Line) :
    Token.eof ∉ layoutMarks depth line.depth ++ line.plain := by
  intro hmem
  rcases List.mem_append.mp hmem with hmark | hplain
  · rw [layoutMarks] at hmark
    split at hmark <;> cases List.eq_of_mem_replicate hmark
  · cases (List.mem_filter.mp hplain).2

theorem firstLine (depth count : Nat) {bytes : List UInt8}
    (hmarked : Source.Marked bytes) :
    FirstLine depth count bytes := by
  cases htext : Source.decode? bytes with
  | none =>
    refine .fault ⟨count + 1,
      .unreadable .notUtf8⟩ count rfl (Nat.le_refl _) fun rest => ?_
    rw [ofLines, htext]
  | some text =>
    cases hline : Line.ofText text with
    | error cause =>
      refine .fault ⟨count + 1, .scan cause⟩ (count + 1) rfl (Nat.le_succ _)
        fun rest => ?_
      rw [ofLines, htext]
      simp only [hline]
    | ok line =>
      -- a blank line adds no tokens, whether it is closed or not
      have hcloses : Closes
          (if line.isBlank then []
          else lineTokens depth line (Source.isTerminated bytes)) := by
        cases line.isBlank with
        | true => exact .inl rfl
        | false =>
          rw [CodeLine.lineTokens_eq depth (hmarked htext hline)]
          exact .inr ⟨_, rfl, eof_not_mem_inner depth line⟩
      cases hterminated : Source.isTerminated bytes with
      | true =>
        refine .line _ (if line.isBlank then depth else line.depth) hcloses fun rest => ?_
        rw [ofLines, htext]
        simp only [hline, hterminated, if_true]
      | false =>
        refine .last _ hcloses fun rest => ?_
        rw [ofLines, htext]
        simp only [hline, hterminated, Bool.false_eq_true, if_false]

/-- The tokens of a line, and a reading of the same line or a later one behind them. -/
theorem Closes.linked {tokens : List Token} (h : Closes tokens) {number : Nat}
    {reading : Reading} {rest : List Reading} (hle : number ≤ reading.line)
    (hrest : Linked (reading :: rest)) :
    Linked (place number tokens ++ reading :: rest) := by
  rcases h with rfl | ⟨inner, rfl, heof⟩
  · exact hrest
  · induction inner with
    | nil => exact .newline hle hrest
    | cons token inner ih =>
      obtain ⟨hne, hinner⟩ := not_or.mp (mt List.mem_cons.mpr heof)
      have hlinked := ih hinner
      cases inner with
      | nil => exact .inside (Ne.symm hne) rfl hlinked
      | cons next inner => exact .inside (Ne.symm hne) rfl hlinked

theorem line_of_place {number : Nat} {tokens : List Token} :
    ∀ reading ∈ place number tokens, reading.line = number := by
  intro reading hreading
  obtain ⟨token, -, rfl⟩ := List.mem_map.mp hreading
  rfl

/-- All readings are on lines that have not been counted yet. -/
theorem lt_line_of_ofLines {lines : List (List UInt8)} (h : Source.Chopped lines) :
    ∀ depth count, ∀ reading ∈ ofLines depth count lines, count < reading.line := by
  refine Source.Chopped.byLine ?_ ?_ h
  · intro depth count
    exact List.forall_mem_singleton.mpr (Nat.lt_succ_self count)
  · intro bytes rest hmarked _ _ ih depth count
    cases firstLine depth count hmarked with
    | fault e count' hline hcount h =>
      rw [h]
      refine List.forall_mem_cons.mpr ⟨by rw [line, hline]; exact Nat.lt_succ_self count,
        fun reading hreading => ?_⟩
      exact Nat.lt_of_le_of_lt hcount (ih depth count' reading hreading)
    | line tokens depth' _ h =>
      rw [h]
      refine List.forall_mem_append.mpr ⟨fun reading hreading => ?_,
        fun reading hreading => ?_⟩
      · rw [line_of_place reading hreading]
        exact Nat.lt_succ_self count
      · exact Nat.lt_of_succ_lt (ih depth' (count + 1) reading hreading)
    | last tokens _ h =>
      rw [h]
      intro reading hreading
      rw [line_of_place reading hreading]
      exact Nat.lt_succ_self count

theorem linked_ofLines {lines : List (List UInt8)} (h : Source.Chopped lines) :
    ∀ depth count, Linked (ofLines depth count lines) := by
  refine Source.Chopped.byLine ?_ ?_ h
  · exact fun depth count => .eof
  · intro bytes rest hmarked _ hrest ih depth count
    cases firstLine depth count hmarked with
    | fault e count' _ _ h =>
      rw [h]
      exact .fault
    | line tokens depth' htokens h =>
      have hlinked := ih depth' (count + 1)
      have hlines := lt_line_of_ofLines hrest depth' (count + 1)
      rw [h]
      cases hstream : ofLines depth' (count + 1) rest with
      | nil =>
        rw [hstream] at hlinked
        cases hlinked
      | cons reading readings =>
        rw [hstream] at hlinked hlines
        exact htokens.linked (Nat.le_of_lt (hlines reading List.mem_cons_self)) hlinked
    | last tokens htokens h =>
      rw [h, CodeLine.place_append]
      exact htokens.linked (Nat.le_refl _) .eof

theorem ofLines_ne_nil {lines : List (List UInt8)} (h : Source.Chopped lines)
    (depth count : Nat) :
    ofLines depth count lines ≠ [] := by
  intro hnil
  have hlinked := linked_ofLines h depth count
  rw [hnil] at hlinked
  cases hlinked

/-- Two streams whose first lines are the same share what comes of these, and behind
that the numbers are higher. -/
theorem exists_shared {front post : List (List UInt8)}
    (h : Source.Chopped (front ++ post)) (post' : List (List UInt8)) (depth count : Nat) :
    ∃ shared rest rest', ofLines depth count (front ++ post) = shared ++ rest ∧
      ofLines depth count (front ++ post') = shared ++ rest' ∧
      Shared (count + front.length) shared rest rest' := by
  induction front generalizing depth count with
  | nil =>
    exact ⟨[], _, _, rfl, rfl,
      .inr (.inr ⟨ofLines_ne_nil h depth count, lt_line_of_ofLines h depth count⟩)⟩
  | cons bytes front ih =>
    obtain ⟨hmarked, -, hrest⟩ := h.of_cons
    cases firstLine depth count hmarked with
    | fault e count' _ _ h =>
      exact ⟨[.fault e], _, _, h _, h _, .inl ⟨e, List.mem_singleton_self _⟩⟩
    | line tokens depth' _ h =>
      obtain ⟨shared, rest, rest', hstream, hstream', hshared⟩ :=
        ih hrest depth' (count + 1)
      refine ⟨place (count + 1) tokens ++ shared, rest, rest', ?_, ?_, ?_⟩
      · rw [List.append_assoc, ← hstream]
        exact h _
      · rw [List.append_assoc, ← hstream']
        exact h _
      · rw [List.length_cons, Nat.add_comm front.length, ← Nat.add_assoc]
        exact hshared.imp_left fun ⟨e, he⟩ => ⟨e, List.mem_append_right _ he⟩
    | last tokens _ h =>
      refine ⟨place (count + 1) (tokens ++ [Token.eof]), [], [], ?_, ?_,
        .inr (.inl ⟨rfl, rfl⟩)⟩
      · rw [List.append_nil]
        exact h _
      · rw [List.append_nil]
        exact h _

end Reading

/-! ## How far a lexer has read -/

namespace Lexer

open Cursor (Query)

/-- All lines so far had numbers, and from its place on the buffer has tokens of the
last line only. -/
structure Level (lexer : Lexer) : Prop where
  valid : lexer.Valid
  line : ∀ lexeme ∈ lexer.buffer.drop lexer.pos, lexeme.line = lexer.count
  reads : lexer.reads = lexer.count

variable {lexer : Lexer} {source : Source}

theorem Level.current (h : lexer.Level) : lexer.cursor.line = lexer.reads := by
  obtain ⟨before, here, behind, hbuffer, hpos⟩ := h.valid.exists_split
  have hline := h.line
  rw [hbuffer, hpos, List.drop_left] at hline
  rw [cursor_of_split hbuffer hpos, h.reads]
  exact hline here List.mem_cons_self

theorem level_ofSource {first : Lexer} (h : ofSource source = (.ok (), first)) :
    first.Level := by
  have hfill := ofSource_spec source
  rw [h] at hfill
  cases hfill with
  | filled hfilled =>
    refine ⟨valid_ofSource h, ?_, ?_⟩
    · rw [hfilled.buffer, hfilled.pos]
      exact hfilled.line
    · simpa [unopened] using hfilled.reads

theorem Level.next_ok (h : lexer.Level) (hnext : lexer.next.1 = .ok ()) :
    lexer.next.2.Level := by
  have hspec : lexer.NextSpec (.ok (), lexer.next.2) := hnext ▸ nextSpec h.valid
  have hvalid := hspec.valid h.valid
  have hreads := h.reads
  generalize lexer.next.2 = lexer' at hspec hvalid
  cases hspec with
  | within =>
    refine ⟨hvalid, fun lexeme hmem => h.line lexeme ?_, hreads⟩
    rw [← List.drop_drop] at hmem
    exact List.mem_of_mem_drop hmem
  | finished => exact h
  | @filled added lexer' hlast _ hfilled =>
    have hinside := h.valid.inside
    have hlength : lexer.buffer.length = lexer'.pos + 1 := by
      rw [hfilled.pos]
      omega
    refine ⟨hvalid, ?_, ?_⟩
    · show ∀ lexeme ∈ lexer'.buffer.drop (lexer'.pos + 1), lexeme.line = lexer'.count
      rw [hfilled.buffer, List.drop_left' hlength]
      exact hfilled.line
    · have hfill := hfilled.reads
      show lexer'.reads = lexer'.count
      omega

/-- A line that cannot be read is the last one that was read, and its error says so. -/
theorem Level.next_error (h : lexer.Level) {e : LexError}
    (hnext : lexer.next.1 = .error e) :
    lexer.next.2.reads = e.line := by
  have hspec : lexer.NextSpec (.error e, lexer.next.2) := hnext ▸ nextSpec h.valid
  cases hspec with
  | blocked _ _ hblocked =>
    have hreads := hblocked.reads
    have hlevel := h.reads
    omega

theorem reads_ofSource {e : LexError} (h : ofSource source = (.error e, lexer)) :
    lexer.reads = e.line := by
  have hfill := ofSource_spec source
  rw [h] at hfill
  cases hfill with
  | blocked hblocked => simpa [unopened] using hblocked.reads

/-- A lexer gets to wherever moves without errors lead its cursor. -/
theorem Level.exists_after (h : lexer.Level) {c : Cursor}
    (hreaches : lexer.cursor.Reaches c) :
    ∃ queries, (lexer.after queries).cursor = c ∧ (lexer.after queries).Level := by
  generalize hstart : lexer.cursor = start at hreaches
  induction hreaches generalizing lexer with
  | refl => exact ⟨[], hstart, h⟩
  | next hnext _ ih =>
    subst hstart
    have hspec : lexer.NextSpec (lexer.next.1, lexer.next.2) := nextSpec h.valid
    cases hresult : lexer.next.1 with
    | error e =>
      rw [hresult] at hspec
      rw [hspec.cursor_error h.valid] at hnext
      cases hnext
    | ok =>
      rw [hresult] at hspec
      rw [hspec.cursor_ok h.valid] at hnext
      cases hnext
      obtain ⟨queries, hcursor, hlevel⟩ := ih (h.next_ok hresult) rfl
      refine ⟨.next :: queries, ?_⟩
      rw [after, step_snd]
      exact ⟨hcursor, hlevel⟩

/-! The cursor tells lexers of one source apart, so that there is one lexer to speak of
at every point of a run. -/

theorem length_passed (h : lexer.Valid) : lexer.cursor.passed.length = lexer.pos := by
  obtain ⟨before, here, behind, hbuffer, hpos⟩ := h.exists_split
  rw [cursor_of_split hbuffer hpos, List.length_reverse, hpos]

theorem cursor_of_next {c c' : Cursor} {token : Token}
    (h : Cursor.next c = .ok token c') :
    c' = c ∨ c'.ahead.length < c.ahead.length := by
  obtain ⟨passed, current, ahead⟩ := c
  rcases ahead with _ | ⟨lexeme | e, rest⟩ <;> cases h
  · exact .inl rfl
  · exact .inr (Nat.lt_succ_self _)

theorem cursor_of_next_error {c c' : Cursor} {e : LexError}
    (h : Cursor.next c = .error e c') :
    c'.ahead.length < c.ahead.length := by
  obtain ⟨passed, current, ahead⟩ := c
  rcases ahead with _ | ⟨lexeme | e, rest⟩ <;> cases h
  exact Nat.lt_succ_self _

/-- A step has less before it than there was, or it changed nothing. -/
theorem step_eq_or_lt (h : lexer.Valid) (query : Query) : (lexer.step query).2 = lexer ∨
    (lexer.step query).2.cursor.ahead.length < lexer.cursor.ahead.length := by
  rw [step_snd]
  cases query.moves with
  | false => exact .inl rfl
  | true =>
    rw [if_pos rfl]
    have hspec : lexer.NextSpec (lexer.next.1, lexer.next.2) := nextSpec h
    have hvalid := hspec.valid h
    generalize lexer.next.2 = lexer' at hspec hvalid
    cases hresult : lexer.next.1 with
    | error e =>
      rw [hresult] at hspec
      exact .inr (cursor_of_next_error (hspec.cursor_error h))
    | ok =>
      rw [hresult] at hspec
      rcases cursor_of_next (hspec.cursor_ok h) with hsame | hless
      · -- a cursor that stays where it is belongs to a lexer at the end of its input
        have hpos := length_passed hvalid
        rw [hsame, length_passed h] at hpos
        cases hspec with
        | within => exact absurd hpos (Nat.ne_of_lt (Nat.lt_succ_self _))
        | finished => exact .inl rfl
        | filled _ _ hfilled =>
          have hstays := hfilled.pos
          simp only at hpos
          omega
      · exact .inr hless

theorem after_eq_or_lt (h : lexer.Valid) (queries : List Query) :
    lexer.after queries = lexer ∨
    (lexer.after queries).cursor.ahead.length < lexer.cursor.ahead.length := by
  induction queries generalizing lexer with
  | nil => exact .inl rfl
  | cons query queries ih =>
    have hrest := ih (valid_step h query)
    rw [after]
    rcases step_eq_or_lt h query with hsame | hless
    · rw [hsame] at hrest ⊢
      exact hrest
    · rcases hrest with hrest | hrest
      · rw [hrest]
        exact .inr hless
      · exact .inr (Nat.lt_trans hrest hless)

theorem after_append (lexer : Lexer) (queries queries' : List Query) :
    lexer.after (queries ++ queries') = (lexer.after queries).after queries' := by
  induction queries generalizing lexer with
  | nil => rfl
  | cons query queries ih => exact ih _

/-- Of queries only the number of moves counts. -/
theorem after_eq_replicate (lexer : Lexer) (queries : List Query) :
    lexer.after queries =
      lexer.after (List.replicate (queries.countP Query.moves) .next) := by
  induction queries generalizing lexer with
  | nil => rfl
  | cons query queries ih =>
    rw [after, step_snd, ih, List.countP_cons]
    cases query.moves with
    | false => rfl
    | true =>
      show _ = lexer.after (.next :: List.replicate (queries.countP Query.moves) .next)
      rw [after, step_snd]
      rfl

theorem after_eq_of_le (h : lexer.Valid) {queries queries' : List Query}
    (heq : (lexer.after queries).cursor = (lexer.after queries').cursor)
    (hle : queries.countP Query.moves ≤ queries'.countP Query.moves) :
    lexer.after queries' = lexer.after queries := by
  rw [after_eq_replicate lexer queries, after_eq_replicate lexer queries'] at heq ⊢
  obtain ⟨more, hmore⟩ := Nat.exists_eq_add_of_le hle
  rw [hmore, ← List.replicate_append_replicate, after_append] at heq ⊢
  rcases after_eq_or_lt (valid_after h _) (List.replicate more .next) with hsame | hless
  · exact hsame
  · rw [← heq] at hless
    exact absurd hless (Nat.lt_irrefl _)

theorem after_eq_of_cursor_eq (h : lexer.Valid) {queries queries' : List Query}
    (heq : (lexer.after queries).cursor = (lexer.after queries').cursor) :
    lexer.after queries = lexer.after queries' := by
  rcases Nat.le_total (queries.countP Query.moves) (queries'.countP Query.moves) with
    hle | hle
  · exact (after_eq_of_le h heq hle).symm
  · exact after_eq_of_le h heq.symm hle

/-- Where a run of the parser has failed there is a lexer that has read as far as the
error says. -/
theorem Level.exists_after_of_reported (h : lexer.Level) {error : ParseError} {c : Cursor}
    (hreported : Reported lexer.cursor error c) :
    ∃ queries,
      (lexer.after queries).cursor = c ∧ (lexer.after queries).reads = error.line := by
  cases hreported with
  | here hreaches hline =>
    obtain ⟨queries, hcursor, hlevel⟩ := h.exists_after hreaches
    refine ⟨queries, hcursor, ?_⟩
    rw [← hlevel.current, hcursor, hline]
  | fault hreaches hnext =>
    obtain ⟨queries, rfl, hlevel⟩ := h.exists_after hreaches
    refine ⟨queries ++ [.next], ?_⟩
    rw [after_append, after, after, step_snd]
    generalize lexer.after queries = lexer' at hnext hlevel ⊢
    have hspec : lexer'.NextSpec (lexer'.next.1, lexer'.next.2) := nextSpec hlevel.valid
    cases hresult : lexer'.next.1 with
    | ok =>
      rw [hresult] at hspec
      rw [hspec.cursor_ok hlevel.valid] at hnext
      cases hnext
    | error e =>
      rw [hresult] at hspec
      rw [hspec.cursor_error hlevel.valid] at hnext
      cases hnext
      exact ⟨rfl, hlevel.next_error hresult⟩

end Lexer

/-! ## Programs -/

namespace Program

variable {source : Source} {error : ParseError}

theorem parser_eq_failed_iff {fuel : Nat} {s : ParserState}
    {r : ParseError × ParserState} :
    parser fuel s = .failed r ↔
    Parser.statements fuel (· == Token.eof) false s = .failed r := by
  rw [parser, Run.bind_apply]
  cases Parser.statements fuel (· == Token.eof) false s with
  | failed r =>
    constructor
    · rintro ⟨⟩
      rfl
    · rintro ⟨⟩
      rfl
  | done r | starved =>
    constructor
    · rintro ⟨⟩
    · rintro ⟨⟩

theorem ofCursor_eq_failed_iff {c : Cursor} : ofCursor c = .failed error ↔
    ∃ t, Parser.statements (parserFuel c.ahead.length) (· == Token.eof) false ⟨c, ∅⟩ =
      .failed (error, t) := by
  simp only [ofCursor, ← parser_eq_failed_iff]
  cases parser (parserFuel c.ahead.length) ⟨c, ∅⟩ with
  | failed r =>
    constructor
    · rintro ⟨⟩
      exact ⟨r.2, rfl⟩
    · rintro ⟨t, ⟨⟩⟩
      rfl
  | done r | starved =>
    constructor
    · rintro ⟨⟩
    · rintro ⟨t, ⟨⟩⟩

/-- The parser has enough fuel for what it reads. -/
theorem runs_statements {c : Cursor} (h : Linked c.stream) :
    Runs false 0 (Parser.statements (parserFuel c.ahead.length) (· == Token.eof) false)
      ⟨c, ∅⟩ := by
  refine (Runs.statementsOfFuel _).statements ⟨h, ?_⟩
  show 16 * c.ahead.length + 13 ≤ 16 * (c.ahead.length + 2)
  omega

theorem linked_readings (source : Source) : Linked source.readings :=
  Reading.linked_ofLines (Source.chopped_cut source.bytes) 0 0

theorem linked_ofSource {c : Cursor} (h : Cursor.ofSource source = .ok c) :
    Linked c.stream := by
  have hlinked := linked_readings source
  rw [Cursor.ofSource] at h
  cases hreadings : source.readings with
  | nil =>
    rw [hreadings] at hlinked
    cases hlinked
  | cons reading rest =>
    rw [hreadings] at h hlinked
    cases reading with
    | token lexeme =>
      cases h
      exact hlinked
    | fault e => cases h

/-- Parsing the source fails with the error, and the lexer is what is left: one that
found no first token, or the one whose cursor is where the parser failed. -/
inductive FailsAt (source : Source) : ParseError → Lexer → Prop where
  | opening {e lexer} (h : Lexer.ofSource source = (.error e, lexer)) :
    FailsAt source (.lexical e) lexer
  | parsing {first error s} (queries : List Cursor.Query)
    (hopen : Lexer.ofSource source = (.ok (), first))
    (hparser : parser (parserFuel first.cursor.ahead.length) ⟨first.cursor, ∅⟩ =
      .failed (error, s))
    (hcursor : (first.after queries).cursor = s.cursor) :
    FailsAt source error (first.after queries)

theorem exists_failsAt (h : parse source = .failed error) :
    ∃ lexer, FailsAt source error lexer := by
  rw [parse] at h
  cases hopen : Lexer.ofSource source with
  | mk result first =>
    cases result with
    | error e =>
      rw [Lexer.cursor_ofSource_error hopen] at h
      cases h
      exact ⟨first, .opening hopen⟩
    | ok =>
      have hcursor := Lexer.cursor_ofSource hopen
      rw [hcursor] at h
      obtain ⟨s, hfailed⟩ := ofCursor_eq_failed_iff.mp h
      have hreported := (runs_statements (linked_ofSource hcursor)).failed hfailed
      obtain ⟨queries, hqueries, -⟩ :=
        (Lexer.level_ofSource hopen).exists_after_of_reported hreported
      exact ⟨_, .parsing queries hopen (parser_eq_failed_iff.mpr hfailed) hqueries⟩

/-- The line of the error is the number of lines that were read. -/
theorem FailsAt.reads {lexer : Lexer} (h : FailsAt source error lexer) :
    lexer.reads = error.line := by
  cases h with
  | opening h => exact Lexer.reads_ofSource h
  | parsing queries hopen hparser hcursor =>
    have hlevel := Lexer.level_ofSource hopen
    have hruns := runs_statements (linked_ofSource (Lexer.cursor_ofSource hopen))
    obtain ⟨queries', hqueries', hreads⟩ :=
      hlevel.exists_after_of_reported (hruns.failed (parser_eq_failed_iff.mp hparser))
    rw [Lexer.after_eq_of_cursor_eq hlevel.valid (hcursor.trans hqueries'.symm)]
    exact hreads

/-! ## What does not matter -/

/-- A run that has failed with an error is not beyond the line of that error. -/
theorem not_endsBeyond {c : Cursor} (h : Linked c.stream) {s : ParserState}
    (hreported : Reported c error s.cursor) :
    ¬ EndsBeyond error.line (.failed
      (error, s) : Outcome (ParseError × ParserState) (List Node × ParserState)) := by
  have hle := hreported.line_le h
  rintro (hbeyond | hbeyond) <;> omega

/-- What has nothing but later lines before it does not fail with the error. -/
theorem ofCursor_ne_failed {c : Cursor} (h : Linked c.stream)
    (hbeyond : Beyond error.line ⟨c, ∅⟩) :
    ofCursor c ≠ .failed error := by
  intro hfailed
  obtain ⟨s, hfailed⟩ := ofCursor_eq_failed_iff.mp hfailed
  have hlocal : Local error.line [] [] _ _ :=
    .statements (parserFuel c.ahead.length) (· == Token.eof) false
  have hends := hlocal.beyond hbeyond
  rw [hfailed] at hends
  exact not_endsBeyond h ((runs_statements h).failed hfailed) hends

theorem ofCursor_of_alike {c c' : Cursor} {rest rest' : List Reading}
    (hlinked : Linked c.stream) (hlinked' : Linked c'.stream)
    (halike : Alike error.line rest rest' ⟨c, ∅⟩ ⟨c', ∅⟩)
    (h : ofCursor c = .failed error) :
    ofCursor c' = .failed error := by
  obtain ⟨s, hfailed⟩ := ofCursor_eq_failed_iff.mp h
  have hreported := (runs_statements hlinked).failed hfailed
  -- both runs with the greater of the two amounts of fuel
  generalize hfuel : max (parserFuel c.ahead.length) (parserFuel c'.ahead.length) = fuel
  have hmore := (Parser.refines_statements (hfuel ▸ Nat.le_max_left ..)
    (· == Token.eof) false).failed hfailed
  have hmore' :=
    Parser.refines_statements (hfuel ▸ Nat.le_max_right ..) (· == Token.eof) false ⟨c', ∅⟩
  have hends := (Local.statements fuel (· == Token.eof) false).alike halike
  rw [hmore] at hends
  generalize Parser.statements fuel (· == Token.eof) false ⟨c', ∅⟩ =
    outcome at hends hmore'
  cases hends with
  | @failed _ _ s' =>
    rcases hmore' with hstarved | hsame
    · exact absurd hstarved (runs_statements hlinked').fed
    · exact ofCursor_eq_failed_iff.mpr ⟨s', hsame⟩
  | beyond hbeyond => exact absurd hbeyond (not_endsBeyond hlinked hreported)

theorem parse_of_shared {source' : Source} {shared rest rest' : List Reading}
    (hstream : source.readings = shared ++ rest)
    (hstream' : source'.readings = shared ++ rest')
    (hshared : Shared error.line shared rest rest') (h : parse source = .failed error) :
    parse source' = .failed error := by
  have hlinked := linked_readings source
  have hlinked' := linked_readings source'
  rw [parse, Cursor.ofSource] at h ⊢
  rw [hstream] at h hlinked
  rw [hstream'] at hlinked' ⊢
  cases shared with
  | nil =>
    -- nothing is shared, so all lines have higher numbers than the error
    rcases hshared with ⟨e, he⟩ | ⟨rfl, -⟩ | ⟨-, hrest⟩
    · cases he
    · cases hlinked
    · rcases rest with _ | ⟨lexeme | e, rest⟩
      · cases hlinked
      · obtain ⟨hlexeme, hrest⟩ := List.forall_mem_cons.mp hrest
        exact absurd h (ofCursor_ne_failed hlinked ⟨hlexeme, hrest⟩)
      · cases h
        exact absurd (List.forall_mem_cons.mp hrest).1 (Nat.lt_irrefl _)
  | cons reading shared =>
    cases reading with
    | fault e => exact h
    | token lexeme =>
      have hcursor : Linked (Cursor.stream ⟨[], lexeme, shared ++ rest⟩) := hlinked
      have hcursor' : Linked (Cursor.stream ⟨[], lexeme, shared ++ rest'⟩) := hlinked'
      exact ofCursor_of_alike hcursor hcursor' ⟨rfl, rfl, rfl, shared, rfl, rfl,
        hshared.tail⟩ h

theorem parse_of_take_eq {source' : Source}
    (hlength : error.line ≤ source.physicalLines.length)
    (htake : source'.physicalLines.take error.line = source.physicalLines.take error.line)
    (h : parse source = .failed error) : parse source' = .failed error := by
  have hlines := List.take_append_drop error.line source.physicalLines
  have hlines' := List.take_append_drop error.line source'.physicalLines
  have hchopped : Source.Chopped
      (source.physicalLines.take error.line ++ source.physicalLines.drop error.line) := by
    rw [hlines]
    exact Source.chopped_cut source.bytes
  obtain ⟨shared, rest, rest', hstream, hstream', hshared⟩ :=
    Reading.exists_shared hchopped (source'.physicalLines.drop error.line) 0 0
  rw [hlines] at hstream
  rw [← htake, hlines'] at hstream'
  rw [Nat.zero_add, List.length_take, Nat.min_eq_left hlength] at hshared
  exact parse_of_shared hstream hstream' hshared h

/-- If parsing a source fails on line `n`, then `n` lines have been read, and every
source with the same `n` lines fails in the same way. A source of fewer lines has the
end of its input for a line. -/
theorem failure_is_local (source : Source) (error : ParseError)
    (h : parse source = .failed error) :
    (∃ lexer, FailsAt source error lexer) ∧
    (∀ lexer, FailsAt source error lexer → lexer.reads = error.line) ∧
      ∀ source' : Source,
        source'.physicalLines.take error.line = source.physicalLines.take error.line →
        (source.physicalLines.length < error.line → source' = source) →
        parse source' = .failed error := by
  refine ⟨exists_failsAt h, fun lexer hfails => hfails.reads, ?_⟩
  intro source' htake hsame
  rcases Nat.lt_or_ge source.physicalLines.length error.line with hless | hlength
  · rw [hsame hless]
    exact h
  · exact parse_of_take_eq hlength htake h

/-- A call of an unknown name on the fourth line, behind a blank one. -/
def unknownCall : Source := .ofString "a = 1\n\nif a:\n  b = c(1)\nprint )\n"

/-- The same four lines, then one that is not text. -/
def unknownCallThenBytes : Source :=
  ⟨(Source.ofString "a = 1\n\nif a:\n  b = c(1)\n").bytes ++ [255]⟩

theorem failure_is_local_unknownCall :
    parse unknownCall = .failed (.grammatical 4 (.unknownCallee "c")) ∧
      (∃ lexer, FailsAt unknownCall (.grammatical 4 (.unknownCallee "c")) lexer ∧
        lexer.reads = 4) ∧
      parse unknownCallThenBytes = .failed (.grammatical 4 (.unknownCallee "c")) := by
  have hparse : parse unknownCall = .failed (.grammatical 4 (.unknownCallee "c")) := by
    decide +kernel
  have hlength : ¬ unknownCall.physicalLines.length < 4 := by decide +kernel
  have htake : unknownCallThenBytes.physicalLines.take 4 =
    unknownCall.physicalLines.take 4 := by decide +kernel
  obtain ⟨⟨lexer, hfails⟩, hreads, hlocal⟩ := failure_is_local _ _ hparse
  exact ⟨hparse, ⟨lexer, hfails, hreads lexer hfails⟩,
    hlocal _ htake fun hless => absurd hless hlength⟩

end Program

end Mint
