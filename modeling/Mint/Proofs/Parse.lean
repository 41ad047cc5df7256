import Mint.Proofs.Parser.StatementComplete

/-!
# Programs by their lines

`Program.parse` accepts a source if and only if every line of it can be read and its
lines with tokens are statements by the grammar, and it yields those statements
(`Program.parse_eq_done_iff`). Statements about accepted sources are from here on
statements about lists of rows.
-/

namespace Mint

open Grammar Mint.Parser

theorem ParserState.At.of_eof {e : Option LexError} {depth : Nat} {lines : List CodeLine}
    {s : ParserState} (h : s.At e depth lines) (htoken : s.cursor.token = Token.eof) :
    lines = [] ∧ e = none := by
  cases lines with
  | cons line lines =>
    exfalso
    rcases Nat.lt_trichotomy line.depth depth with hlt | heq | hgt
    · obtain ⟨depth, rfl⟩ : ∃ d, depth = d + 1 := ⟨depth - 1, by omega⟩
      have hdedent := h.token_eq (flat_shallower (Nat.le_of_lt_succ hlt))
      rw [htoken] at hdedent
      cases hdedent
    · have hplain := h.isLayout_level heq
      rw [htoken] at hplain
      cases hplain
    · have hindent := h.token_eq (flat_deeper hgt)
      rw [htoken] at hindent
      cases hindent
  | nil =>
    refine ⟨rfl, ?_⟩
    obtain ⟨tail, hends, hstream⟩ := h.stream
    cases e with
    | none => rfl
    | some e =>
      obtain ⟨rest, rfl⟩ := hends
      cases (List.cons.inj hstream).1

theorem rowsCost_le_flat (depth : Nat) (lines : List CodeLine) :
    rowsCost (lines.map CodeLine.row) ≤ 16 * (CodeLine.flat depth lines).length := by
  induction lines generalizing depth with
  | nil => exact Nat.le_refl 0
  | cons line lines ih =>
    have hrest := ih line.depth
    rw [List.map_cons, rowsCost_cons, CodeLine.flat]
    simp only [CodeLine.row, Reading.place, List.length_append, List.length_map,
      List.length_cons, List.length_nil]
    omega

namespace Program

/-- All lines of a source can be read, and these are the ones with tokens. -/
def Lines (source : Source) (lines : List CodeLine) : Prop :=
  CodeLine.leading 0 source.physicalLines = (lines, none)

/-- An accepted source has a first token, and its statements are read up to the end of
the input. -/
theorem parse_eq_done_iff_statements {source : Source} {program : Program} :
    parse source = .done program ↔
    ∃ cursor u, Cursor.ofSource source = .ok cursor ∧ u.classes = program.classes ∧
      Parser.statements (parserFuel cursor.ahead.length) (· == Token.eof) false
        ⟨cursor, ∅⟩ =
        .done (program.statements, u) := by
  rw [parse]
  cases hcursor : Cursor.ofSource source with
  | error e =>
    constructor
    · intro h
      cases h
    · rintro ⟨cursor, u, ⟨⟩, -⟩
  | ok cursor =>
    simp only [ofCursor, parser]
    cases hstatements : Parser.statements (parserFuel cursor.ahead.length)
      (· == Token.eof) false ⟨cursor, ∅⟩ with
    | starved =>
      rw [Run.bind_starved hstatements]
      constructor
      · intro h
        cases h
      · rintro ⟨cursor, u, ⟨⟩, -, h⟩
        rw [hstatements] at h
        cases h
    | failed r =>
      rw [Run.bind_failed hstatements]
      constructor
      · intro h
        cases h
      · rintro ⟨cursor, u, ⟨⟩, -, h⟩
        rw [hstatements] at h
        cases h
    | done r =>
      obtain ⟨nodes, u⟩ := r
      rw [Run.bind_done hstatements]
      constructor
      · intro h
        cases h
        exact ⟨cursor, u, rfl, rfl, hstatements⟩
      · rintro ⟨cursor, u', ⟨⟩, hclasses, h⟩
        rw [hstatements] at h
        cases h
        show Outcome.done (⟨program.statements, u.classes⟩ : Program) = .done program
        rw [hclasses]

/-- A source whose lines can all be read has a first token. -/
theorem exists_cursor {source : Source} {lines : List CodeLine} (h : Lines source lines) :
    ∃ cursor, Cursor.ofSource source = .ok cursor ∧
      cursor.ahead.length = (CodeLine.flat 0 lines).length := by
  obtain ⟨tail, htail, hends⟩ :=
    CodeLine.ofLines_eq_flat (Source.chopped_cut source.bytes) 0 0
  rw [show CodeLine.leading 0 (Source.cut source.bytes) = (lines, none) from h]
    at htail hends
  obtain ⟨number, rfl⟩ := hends
  obtain ⟨lexeme, rest, hflat⟩ := ParserState.exists_token_of_flat 0 lines number
  have hreadings : source.readings = .token lexeme :: rest := htail.trans hflat
  refine ⟨⟨[], lexeme, rest⟩, by rw [Cursor.ofSource, hreadings]; rfl, ?_⟩
  have hlength := congrArg List.length hflat
  simp only [List.length_append, List.length_cons, List.length_nil] at hlength
  show rest.length = _
  omega

/-- A source is accepted if its lines are statements, and only then. -/
theorem parse_eq_done_iff {source : Source} {program : Program} :
    parse source = .done program ↔
    ∃ lines, Lines source lines ∧
      Block false 0 ∅ (lines.map CodeLine.row)
        (.statements program.statements) program.classes := by
  rw [parse_eq_done_iff_statements]
  constructor
  · rintro ⟨cursor, u, hcursor, hclasses, h⟩
    obtain ⟨-, -, hat⟩ := ParserState.at_ofSource hcursor ∅
    obtain ⟨⟨used, rest, hlines, hu, hblock⟩, hstop⟩ := (blocksSound _).statements hat h
    obtain ⟨rfl, he⟩ := hu.of_eof (beq_iff_eq.mp hstop)
    rw [List.append_nil] at hlines
    rw [hclasses] at hblock
    exact ⟨used, Prod.ext hlines he, hblock⟩
  · rintro ⟨lines, hlines, hblock⟩
    obtain ⟨cursor, hcursor, hlength⟩ := exists_cursor hlines
    obtain ⟨-, -, hat⟩ := ParserState.at_ofSource hcursor ∅
    rw [show CodeLine.leading 0 source.physicalLines = (lines, none) from hlines,
      ← List.append_nil lines] at hat
    have hfuel := rowsCost_le_flat 0 lines
    have hends : EndsAt (· == Token.eof) 0 [] :=
      ⟨fun u hu => by rw [hu.token_of_nil]; rfl,
        fun token htoken => by cases token <;> first | rfl | cases htoken⟩
    obtain ⟨u, hstatements, -, hclasses⟩ :=
      completePart_of_block hblock (parserFuel cursor.ahead.length) rfl hat rfl
        (fun line hline => by cases hline)
        (by simp only [partCost, parserFuel]; omega) _ hends
    exact ⟨cursor, u, hcursor, hclasses, hstatements⟩

end Program

end Mint
