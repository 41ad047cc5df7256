import Mint.Proofs.Parse
import Mint.Proofs.Parser.Balance

/-!
# Nesting by indentation

The lexer counts levels, and the parser's blocks are its calls under way; all that the
two share is a flat stream of tokens. On an accepted source they never get out of step:
the blocks around a clause are as many as its line has pairs of leading spaces
(`Program.nesting_is_indentation`). What is said of a run of the parser is said of its
log.
-/

namespace Mint

open Event Reading

/-- The blocks of the log are those that the indentation of the source shows. -/
structure NestsByIndentation (source : Source) (log : List Event) : Prop where
  readable : ∀ bytes ∈ source.physicalLines, Source.Readable bytes
  /-- Every indentation opens a block, directly behind a colon and a line end. -/
  indents : ∀ place, tokenAt source.readings place = some (.layout .indent) →
    .opens place ∈ log ∧ Opening source.readings place
  /-- The clauses start the lines that are not blank, one clause a line, and a line has
  two spaces for each block around its clause. -/
  lines : List.Forall₂ (Begins source.readings) (startsFrom 0 log) source.contentLines
  /-- Every `else` is read for the latest `if` before it whose line has as many spaces. -/
  elses : ∀ before start line after place,
    (startsFrom 0 log).zip source.contentLines = before ++ (start, line) :: after →
    start.clause = .alternative place →
    ∃ earlier first between,
      before = earlier ++ first :: between ∧ first.1.clause = .conditional ∧
      first.1.place = place ∧ first.2.spaces = line.spaces ∧
      ∀ x ∈ between, x.1.clause = .conditional → x.2.spaces ≠ line.spaces
  /-- Every dedentation closes a block that is open. -/
  dedents : ∀ place,
    tokenAt source.readings place = some (.layout .dedent) → ClosesBlock log place
  /-- Also at the end of the input only blocks that are open are closed. -/
  guarded : Guarded 0 log
  /-- No block is left open. -/
  balanced : blocks 0 log = 0

/-- What is so by depth is so by leading spaces. -/
theorem elses_of_attached {stream : List Reading} {found : List Start}
    {lines : List ContentLine} (hlines : List.Forall₂ (Begins stream) found lines)
    (h : ElsesAttached found) {before after : List (Start × ContentLine)} {start : Start}
    {line : ContentLine} {place : Nat}
    (heq : found.zip lines = before ++ (start, line) :: after)
    (hclause : start.clause = .alternative place) :
    ∃ earlier first between,
      before = earlier ++ first :: between ∧ first.1.clause = .conditional ∧
      first.1.place = place ∧ first.2.spaces = line.spaces ∧
      ∀ x ∈ between, x.1.clause = .conditional → x.2.spaces ≠ line.spaces := by
  obtain ⟨hlength, hbegins⟩ := List.forall₂_iff_zip.mp hlines
  have hspaces : ∀ x ∈ found.zip lines, x.2.spaces = 2 * x.1.depth :=
    fun x hx => (hbegins hx).spaces
  have hfound : found = before.map Prod.fst ++ start :: after.map Prod.fst := by
    have hmap := congrArg (List.map Prod.fst) heq
    rw [List.map_fst_zip (Nat.le_of_eq hlength)] at hmap
    simpa using hmap
  obtain ⟨earlier, first, between, hbefore, hfirst, hplace, hdepth, hbetween⟩ :=
    h _ start _ place hfound hclause
  obtain ⟨earlier, rest, rfl, rfl, hrest⟩ := List.map_eq_append_iff.mp hbefore
  obtain ⟨first, between, rfl, rfl, rfl⟩ := List.map_eq_cons_iff.mp hrest
  rw [heq] at hspaces
  have hline : line.spaces = 2 * start.depth := hspaces (start, line) (by simp)
  refine ⟨earlier, first, between, rfl, hfirst, hplace, ?_, ?_⟩
  · have hfirstSpaces := hspaces first (by simp)
    omega
  · intro x hx hx'
    have hxSpaces := hspaces x (by simp [hx])
    have hne := hbetween x.1 (List.mem_map_of_mem hx) hx'
    omega

/-- Behind the last line is no mark for depth. -/
theorem ParserState.At.tokenAt_of_nil {u : ParserState} {depth : Nat}
    (h : u.At none depth []) {place : Nat} (hle : u.place ≤ place) (mark : Layout)
    (hmark : mark ≠ .eof) :
    tokenAt u.cursor.whole place ≠ some (.layout mark) := by
  obtain ⟨tail, ⟨n, rfl⟩, hstream⟩ := h.stream
  obtain ⟨k, rfl⟩ := Nat.exists_eq_add_of_le hle
  rw [tokenAt, ParserState.place, ← List.getElem?_drop, Cursor.drop_whole, hstream]
  cases k with
  | zero =>
    intro heq
    cases heq
    exact hmark rfl
  | succ k => simp [CodeLine.flat]

namespace Program

theorem nests_of_statements {source : Source} {cursor : Cursor} {fuel : Nat}
    {nodes : List Node} {u : ParserState} {log : List Event}
    (hcursor : Cursor.ofSource source = .ok cursor)
    (h : Traced.statements fuel (· == Token.eof) false (⟨cursor, ∅⟩, []) =
      .done (nodes, u, log))
    (hmeets : MeetsInBlocks source.readings (Trace.of (u, log))) :
    NestsByIndentation source log := by
  obtain ⟨hpassed, hwhole, hat⟩ := ParserState.at_ofSource hcursor ∅
  obtain ⟨events, used, rest, hlog, hlines, hu, haccount, helses⟩ :=
    (Traced.logsAll fuel).statements hat h
  obtain rfl : log = events := hlog
  -- the run stopped at the end of the input, so no line is left
  obtain ⟨rfl, he⟩ := hu.of_eof (beq_iff_eq.mp (Traced.stop_of_statements h))
  rw [List.append_nil] at hlines
  rw [he] at hu
  obtain ⟨hcontent, hreadable⟩ :=
    CodeLine.contentLines_of_leading (Source.chopped_cut source.bytes) (fun _ => id)
      (Prod.ext hlines he)
  have hstarts :
      List.Forall₂ (Begins source.readings) (startsFrom 0 log) source.contentLines := by
    rw [← hwhole, show source.contentLines = used.map CodeLine.content from hcontent]
    exact haccount.starts
  -- at the end of the input and behind it are no marks for depth
  have hbehind : ∀ place, u.place ≤ place → ∀ mark : Layout, mark ≠ .eof →
      tokenAt source.readings place ≠ some (.layout mark) := by
    intro place hle mark hmark
    rw [← hwhole, ← haccount.whole_eq]
    exact hu.tokenAt_of_nil hle mark hmark
  refine ⟨hreadable, ?_, hstarts, ?_, ?_, haccount.guarded, haccount.balanced⟩
  · intro place hindent
    have hlt : place < u.place := by
      by_contra hge
      exact hbehind place (Nat.not_lt.mp hge) .indent (by simp) hindent
    rw [← hwhole] at hindent ⊢
    have hopens := haccount.indents place
      (by rw [ParserState.place, hpassed]; exact Nat.zero_le _) hlt hindent
    exact ⟨hopens, haccount.opening place hopens⟩
  · intro before start line after place heq hclause
    exact elses_of_attached hstarts helses heq hclause
  · intro place hdedent
    by_cases hlt : place < u.place
    · exact hmeets.passed place hlt hdedent
    · exact absurd hdedent (hbehind place (Nat.not_lt.mp hlt) .dedent (by simp))

theorem exists_of_parseTraced {source : Source} {program : Program} {trace : Trace}
    (h : parseTraced source = .done (program, trace)) :
    ∃ cursor u, Cursor.ofSource source = .ok cursor ∧
      Traced.statements (parserFuel cursor.ahead.length) (· == Token.eof) false
        (⟨cursor, ∅⟩, []) =
        .done (program.statements, u, trace.log) ∧ trace = Trace.of (u, trace.log) := by
  rw [parseTraced] at h
  cases hcursor : Cursor.ofSource source with
  | error e =>
    rw [hcursor] at h
    cases h
  | ok cursor =>
    simp only [hcursor] at h
    refine ⟨cursor, ?_⟩
    cases hprogram :
      Traced.program (parserFuel cursor.ahead.length) (⟨cursor, ∅⟩, []) with
    | starved =>
      rw [hprogram] at h
      cases h
    | failed r =>
      rw [hprogram] at h
      cases h
    | done r =>
      rw [hprogram] at h
      cases h
      simp only [Traced.program, Run.bind_eq_done_iff, Run.pure_eq_done_iff] at hprogram
      obtain ⟨statements, ⟨u, log⟩, hstatements, classes, r', hclasses, rfl⟩ := hprogram
      cases hclasses
      exact ⟨u, rfl, hstatements, rfl⟩

/-- Block nesting is indentation: the log of every accepted source tells of blocks as
the indentation shows them, and no run, also none that fails, meets a dedentation
outside of all blocks. -/
theorem nesting_is_indentation :
    (∀ source, ((parseTraced source).map Prod.fst).mapCause Prod.fst = parse source) ∧
    (∀ source program, parse source = .done program →
      ∃ trace, parseTraced source = .done (program, trace) ∧
        NestsByIndentation source trace.log) ∧
    ∀ source trace, Leaves source trace → MeetsInBlocks source.readings trace := by
  refine ⟨map_parseTraced, ?_, fun source trace => meetsInBlocks⟩
  intro source program h
  have hmap := map_parseTraced source
  rw [h] at hmap
  cases htraced : parseTraced source with
  | starved =>
    rw [htraced] at hmap
    cases hmap
  | failed e =>
    rw [htraced] at hmap
    cases hmap
  | done r =>
    rw [htraced] at hmap
    cases hmap
    obtain ⟨cursor, u, hcursor, hstatements, htrace⟩ := exists_of_parseTraced htraced
    have hmeets := meetsInBlocks (.inl ⟨_, htraced⟩)
    rw [htrace] at hmeets
    exact ⟨r.2, rfl, nests_of_statements hcursor hstatements hmeets⟩

/-- An `if` inside another, and an `else` two levels further out than what stands before
it. -/
def danglingElse : Source := .ofString "if a:\n  if b:\n    print 1\nelse:\n  print 2\n"

/-- What `danglingElse` is read as: the `else` belongs to the outer `if`. -/
def danglingElseProgram : Program where
  statements := [.ifElse (.path ["a"])
    (.block [.ifThen (.path ["b"]) (.block [.print [.lit (.number 1)]])])
    (.block [.print [.lit (.number 2)]])]
  classes := ∅

/-- The log of it. Two dedentations stand before the `else`, and the last block is
closed by the end of the input. -/
def danglingElseLog : List Event :=
  [.starts .conditional 0, .opens 4, .starts .conditional 5, .opens 9,
    .starts .statement 10, .closes 13, .closes 14,
    .starts (.alternative 0) 15, .opens 18, .starts .statement 19, .closes 22]

/-- A fault behind two dedentations. -/
def lateFault : Source := .ofString "if a:\n  if b:\n    print 1\nprint )\n"

def lateFaultLog : List Event :=
  [.starts .conditional 0, .opens 4, .starts .conditional 5, .opens 9,
    .starts .statement 10, .closes 13, .closes 14, .starts .statement 15]

theorem nesting_is_indentation_danglingElse :
    (parse danglingElse = .done danglingElseProgram ∧
      parseTraced danglingElse = .done (danglingElseProgram, ⟨22, danglingElseLog⟩) ∧
      NestsByIndentation danglingElse danglingElseLog) ∧
    Leaves lateFault ⟨16, lateFaultLog⟩ ∧
    MeetsInBlocks lateFault.readings ⟨16, lateFaultLog⟩ := by
  have hparse : parse danglingElse = .done danglingElseProgram := by decide +kernel
  have htraced : parseTraced danglingElse =
    .done (danglingElseProgram, ⟨22, danglingElseLog⟩) := by decide +kernel
  obtain ⟨trace, htrace, hnests⟩ :=
    nesting_is_indentation.2.1 danglingElse danglingElseProgram hparse
  rw [htraced] at htrace
  cases htrace
  have hfault : parseTraced lateFault =
      .failed (.grammatical 4 (.unexpected .expression (.char ')')),
        ⟨16, lateFaultLog⟩) := by decide +kernel
  have hleaves : Leaves lateFault ⟨16, lateFaultLog⟩ := .inr ⟨_, hfault⟩
  exact ⟨⟨hparse, htraced, hnests⟩, hleaves, nesting_is_indentation.2.2 _ _ hleaves⟩

end Program

end Mint
