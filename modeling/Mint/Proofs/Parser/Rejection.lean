import Mint.Proofs.Concatenation
import Mint.Proofs.Failure

/-!
# Errors go through

No production recovers from an error. If the last statement of an accepted source is
replaced by a line on which the production of statements fails, the source fails with
the error of that line, whatever stands behind it (`Program.parse_of_broken`). What
stands before it is read as before: the complete parts of the program by
`completePart_of_block`, and of the parts that are still open where the line stands
their headers.
-/

namespace Mint.Parser

open Grammar

/-- The lines are those of the rows, but in the place of the last row, which has the
tokens `ts`, stands `line`, and there may be more lines behind it. -/
def Replaced (ts : List Token) (line : CodeLine) (rows : List Row)
    (lines : List CodeLine) : Prop :=
  ∃ front rest,
    lines = front ++ line :: rest ∧ rows = front.map CodeLine.row ++ [⟨line.depth, ts⟩]

/-- Wherever the tokens `ts` are a statement, the line is not. It begins with these
tokens, and the parser fails on it. -/
structure Breaks (ts : List Token) (line : CodeLine) (error : ParseError) : Prop where
  nonempty : ts ≠ []
  begins : ts <+: line.tokens
  fails : ∀ {inMethod classes node rest s} (fuel : Nat), Simple inMethod classes ts node →
    s.At none line.depth (line :: rest) → s.classes = classes →
    16 * (ts.length + 1) ≤ fuel →
      ∃ u, statement fuel inMethod s = .failed (error, u)

variable {ts : List Token} {line : CodeLine} {error : ParseError}

/-! ## Lines with one replaced -/

namespace Replaced

variable {row : Row} {rows rows' : List Row} {lines : List CodeLine}

theorem split (h : Replaced ts line (rows ++ rows') lines) (hne : rows' ≠ []) :
    ∃ first others, lines = first ++ others ∧ first.map CodeLine.row = rows ∧
      Replaced ts line rows' others := by
  obtain ⟨front, rest, rfl, hrows⟩ := h
  rw [← List.dropLast_concat_getLast hne, ← List.append_assoc] at hrows
  obtain ⟨hfront, hlast⟩ := List.append_inj' hrows rfl
  obtain ⟨first, others, rfl, hfirst, hothers⟩ := List.map_eq_append_iff.mp hfront.symm
  refine ⟨first, others ++ line :: rest, List.append_assoc _ _ _, hfirst, others,
    rest, rfl, ?_⟩
  rw [hothers, ← hlast, List.dropLast_concat_getLast hne]

theorem cons (h : Replaced ts line (row :: rows) lines) (hne : rows ≠ []) :
    ∃ first others,
      lines = first :: others ∧ first.row = row ∧ Replaced ts line rows others := by
  have h' : Replaced ts line ([row] ++ rows) lines := h
  obtain ⟨first, others, rfl, hfirst, hothers⟩ := h'.split hne
  obtain ⟨first, rfl, hrow⟩ := List.map_eq_singleton_iff.mp hfirst
  exact ⟨first, others, rfl, hrow, hothers⟩

theorem single (h : Replaced ts line [row] lines) :
    row = ⟨line.depth, ts⟩ ∧ ∃ rest, lines = line :: rest := by
  obtain ⟨front, rest, rfl, hrows⟩ := h
  obtain ⟨hfront, hlast⟩ := List.append_inj' (show [] ++ [row] = _ from hrows) rfl
  rw [List.map_eq_nil_iff.mp hfront.symm]
  exact ⟨List.singleton_inj.mp hlast, rest, rfl⟩

/-- The first line has the depth of the first row, and is no `else` either. -/
theorem exists_first (hbreaks : Breaks ts line error) (h : Replaced ts line rows lines)
    {inMethod : Bool} {depth : Nat} {classes classes' : ClassTable} {part : Part}
    (hblock : Block inMethod depth classes rows part classes') :
    ∃ first others, lines = first :: others ∧ first.depth = depth ∧
      first.tokens.head? ≠ some (.keyword .elseKw) := by
  obtain ⟨front, rest, rfl, rfl⟩ := h
  cases front with
  | nil =>
    obtain ⟨hdepth, helse⟩ := hblock.head_row _ rfl
    refine ⟨line, rest, rfl, hdepth, ?_⟩
    obtain ⟨more, hmore⟩ := hbreaks.begins
    obtain ⟨token, ts, rfl⟩ := List.exists_cons_of_ne_nil hbreaks.nonempty
    rw [← hmore]
    exact helse
  | cons first front =>
    obtain ⟨hdepth, helse⟩ := hblock.head_row first.row rfl
    exact ⟨first, front ++ line :: rest, rfl, hdepth, helse⟩

theorem follows (hbreaks : Breaks ts line error) (h : Replaced ts line rows lines)
    {inMethod : Bool} {depth : Nat} {classes classes' : ClassTable} {part : Part}
    (hblock : Block inMethod depth classes rows part classes') :
    Follows depth lines := by
  obtain ⟨first, others, rfl, hdepth, helse⟩ := h.exists_first hbreaks hblock
  rintro l ⟨⟩
  exact ⟨Nat.le_of_eq hdepth, fun _ => helse⟩

end Replaced

/-! ## Parts that break off -/

/-- The production of a part fails. -/
def FailsPart (fuel : Nat) (inMethod : Bool) (s : ParserState) (error : ParseError) :
    Part → Prop
  | .statement _ => ∃ u, statement fuel inMethod s = .failed (error, u)
  | .statements _ =>
    ∀ stop, (∀ token : Token, token.isLayout = false → stop token = false) →
      ∃ u, statements fuel stop inMethod s = .failed (error, u)
  | .method _ => ∃ u, method fuel s = .failed (error, u)
  | .methods _ => ∃ u, methods fuel s = .failed (error, u)

/-- Wherever the lines stand with the last of them replaced, the production of the part
fails. -/
def BrokenPart (ts : List Token) (line : CodeLine) (error : ParseError) (inMethod : Bool)
    (depth : Nat) (classes : ClassTable) (rows : List Row) (part : Part) : Prop :=
  ∀ (fuel : Nat) ⦃lines : List CodeLine⦄ ⦃s : ParserState⦄,
    Replaced ts line rows lines → s.At none depth lines →
    s.classes = classes → rowsCost rows + partCost part ≤ fuel →
    FailsPart fuel inMethod s error part

theorem endsBlock_of_plain {token : Token} (h : token.isLayout = false) :
    endsBlock token = false := by
  cases token <;> first | rfl | cases h

variable {s t : ParserState} {inMethod : Bool} {depth : Nat}
  {classes classes' classes'' : ClassTable} {rows rows' : List Row} {us : List Token}
  {condition node : Node} {nodes nodes' : List Node} {found : Method} {more : List Method}
  {lines : List CodeLine}

/-- A block that breaks off can be opened. -/
theorem openBlock_of_replaced (hbreaks : Breaks ts line error)
    (hreplaced : Replaced ts line rows lines) {part : Part}
    (hblock : Block inMethod (depth + 1) classes rows part classes')
    (hnewline : s.Takes [Token.newline] t) (ht : t.At none depth lines) :
    ∃ v, openBlock s = .done ((), v) ∧ v.At none (depth + 1) lines ∧
      v.classes = s.classes := by
  obtain ⟨first, others, rfl, hdepth, -⟩ := hreplaced.exists_first hbreaks hblock
  obtain ⟨v, hindent, hv⟩ :=
    ht.exists_indent (by rw [hdepth]; exact Nat.lt_succ_self depth)
  exact ⟨v, openBlock_complete hnewline hindent, hv,
    by rw [hindent.classes_eq, hnewline.classes_eq]⟩

/-- A suite fails if the statements in it do. -/
theorem suite_of_replaced (fuel : Nat) (hbreaks : Breaks ts line error)
    (hreplaced : Replaced ts line rows lines)
    (hblock : Block inMethod (depth + 1) classes rows (.statements nodes) classes')
    (ih : BrokenPart ts line error inMethod (depth + 1) classes rows (.statements nodes))
    (hnewline : s.Takes [Token.newline] t) (ht : t.At none depth lines)
    (hclasses : s.classes = classes) (hfuel : rowsCost rows + 2 ≤ fuel) :
    ∃ u, suite fuel inMethod s = .failed (error, u) := by
  obtain ⟨fuel, rfl⟩ : ∃ f, fuel = f + 1 := ⟨fuel - 1, by omega⟩
  obtain ⟨v, hopen, hv, hvclasses⟩ :=
    openBlock_of_replaced hbreaks hreplaced hblock hnewline ht
  obtain ⟨u, hu⟩ := ih fuel hreplaced hv (hvclasses.trans hclasses)
    (by simp only [partCost]; omega) endsBlock fun _ => endsBlock_of_plain
  refine ⟨u, ?_⟩
  rw [suite, Run.bind_done hopen, Run.bind_failed hu]

namespace BrokenPart

theorem simple (hbreaks : Breaks ts line error) (h : Simple inMethod classes us node) :
    BrokenPart ts line error inMethod depth classes [⟨depth, us⟩] (.statement node) := by
  intro fuel lines s hreplaced hs hclasses hfuel
  obtain ⟨hrow, rest, rfl⟩ := hreplaced.single
  obtain ⟨rfl, rfl⟩ : depth = line.depth ∧ us = ts := Row.mk.inj hrow
  exact hbreaks.fails fuel h hs hclasses hfuel

theorem ifThen (hbreaks : Breaks ts line error)
    (hcondition : Spells classes us (.expression .disjunction condition))
    (hyes : Block inMethod (depth + 1) classes rows (.statements nodes) classes')
    (hne : nodes ≠ []) (ih : BrokenPart ts line error inMethod (depth + 1) classes rows
      (.statements nodes)) :
    BrokenPart ts line error inMethod depth classes (⟨depth, conditionHeader us⟩ :: rows)
      (.statement (.ifThen condition (.block nodes))) := by
  intro fuel lines s hreplaced hs hclasses hfuel
  obtain ⟨header, lines, rfl, hrow, hreplaced⟩ :=
    hreplaced.cons (hyes.rows_ne_nil (by simpa using hne))
  simp only [rowsCost_cons, conditionHeader, List.length_cons, List.length_append,
    partCost] at hfuel
  obtain ⟨fuel, rfl⟩ : ∃ f, fuel = f + 2 := ⟨fuel - 2, by omega⟩
  obtain ⟨t, u, hnewline, hu, htclasses, hstatement⟩ :=
    statement_of_condition fuel hcondition hrow hs hclasses (by omega)
  obtain ⟨v, hsuite⟩ :=
    suite_of_replaced fuel hbreaks hreplaced hyes ih hnewline hu htclasses (by omega)
  refine ⟨v, ?_⟩
  rw [hstatement, Run.bind_failed hsuite]

theorem ifElse (hbreaks : Breaks ts line error)
    (hcondition : Spells classes us (.expression .disjunction condition))
    (hyes : Block inMethod (depth + 1) classes rows (.statements nodes) classes')
    (hne : nodes ≠ [])
    (hno : Block inMethod (depth + 1) classes' rows' (.statements nodes') classes'')
    (hne' : nodes' ≠ []) (ih : BrokenPart ts line error inMethod
      (depth + 1) classes' rows' (.statements nodes')) :
    BrokenPart ts line error inMethod depth classes
      (⟨depth, conditionHeader us⟩ :: (rows ++ ⟨depth, elseHeader⟩ :: rows'))
      (.statement (.ifElse condition (.block nodes) (.block nodes'))) := by
  intro fuel lines s hreplaced hs hclasses hfuel
  obtain ⟨header, lines, rfl, hrow, hreplaced⟩ := hreplaced.cons (by simp)
  obtain ⟨yes, lines, rfl, hyesLines, hreplaced⟩ := hreplaced.split (List.cons_ne_nil _ _)
  obtain ⟨header', lines, rfl, hrow', hreplaced⟩ :=
    hreplaced.cons (hno.rows_ne_nil (by simpa using hne'))
  simp only [rowsCost_cons, rowsCost_append, conditionHeader, List.length_cons,
    List.length_append, partCost] at hfuel
  obtain ⟨fuel, rfl⟩ : ∃ f, fuel = f + 2 := ⟨fuel - 2, by omega⟩
  -- the first suite is complete, for the `else` stands behind it
  have hshallow : ∀ l ∈ (header' :: lines).head?, l.depth ≤ depth := by
    rintro l ⟨⟩
    exact Nat.le_of_eq (Row.mk.inj hrow').1
  obtain ⟨v, hstatement, hv, hvclasses⟩ :=
    exists_of_condition fuel hcondition hyes hne (completePart_of_block hyes) hrow
      hyesLines hs hclasses hshallow (by omega)
  obtain ⟨t, u, hnewline, hu, htclasses, helse⟩ := alternative_of_header
    (do return Node.ifElse condition (.block nodes) (← suite fuel inMethod))
    (return Node.ifThen condition (.block nodes)) hrow' hv
  obtain ⟨w, hsuite⟩ := suite_of_replaced fuel hbreaks hreplaced hno ih hnewline hu
    (htclasses.trans hvclasses) (by omega)
  refine ⟨w, ?_⟩
  rw [hstatement, helse, Run.bind_failed hsuite]

theorem declaration {name : String} {parent : Option ClassId}
    (hbreaks : Breaks ts line error) (hparent : Parent classes us parent)
    (hmethods : Block inMethod (depth + 1) classes rows (.methods more) classes')
    (ih : BrokenPart ts line error inMethod (depth + 1) classes rows (.methods more)) :
    BrokenPart ts line error inMethod depth classes (⟨depth, classHeader name us⟩ :: rows)
      (.statement (.define classes'.size)) := by
  intro fuel lines s hreplaced hs hclasses hfuel
  obtain ⟨header, lines, rfl, hrow, hreplaced⟩ :=
    hreplaced.cons (hmethods.rows_ne_nil (by simp))
  simp only [rowsCost_cons, classHeader, List.length_cons, List.length_append,
    partCost] at hfuel
  obtain ⟨fuel, rfl⟩ : ∃ f, fuel = f + 2 := ⟨fuel - 2, by omega⟩
  obtain ⟨t, u, hnewline, hu, htclasses, hstatement⟩ :=
    statement_of_classHeader fuel hparent hrow hs hclasses
  obtain ⟨v, hopen, hv, hvclasses⟩ :=
    openBlock_of_replaced hbreaks hreplaced hmethods hnewline hu
  obtain ⟨w, hw⟩ :=
    ih fuel hreplaced hv (hvclasses.trans htclasses) (by simp only [partCost]; omega)
  refine ⟨w, ?_⟩
  rw [hstatement, Run.bind_done hopen, Run.bind_failed hw]

theorem statements (hbreaks : Breaks ts line error)
    (hfirst : Block inMethod depth classes rows (.statement node) classes')
    (hrest : Block inMethod depth classes' rows' (.statements nodes) classes'')
    (ih : BrokenPart ts line error inMethod depth classes rows (.statement node))
    (ih' : BrokenPart ts line error inMethod depth classes' rows' (.statements nodes)) :
    BrokenPart ts line error inMethod depth classes (rows ++ rows')
      (.statements (node :: nodes)) := by
  intro fuel lines s hreplaced hs hclasses hfuel stop hstop
  have hcost := rowsCost_pos (hfirst.rows_ne_nil (by rintro ⟨⟩))
  simp only [rowsCost_append, partCost] at hfuel
  obtain ⟨fuel, rfl⟩ : ∃ f, fuel = f + 1 := ⟨fuel - 1, by omega⟩
  -- a line stands at this depth, so the statements go on
  obtain ⟨first, others, hlines, hdepth, -⟩ :=
    hreplaced.exists_first hbreaks (.statements hfirst hrest)
  have hplain : stop s.cursor.token = false := by
    rw [hlines] at hs
    exact hstop _ (hs.isLayout_level hdepth)
  have hstatements : Parser.statements (fuel + 1) stop inMethod s = (do
      let first ← statement fuel inMethod
      return first :: (← Parser.statements fuel stop inMethod) :
          Parser (List Node)) s := by
    rw [Parser.statements, peek_bind, hplain]
    rfl
  rw [hstatements]
  by_cases hne : rows' = []
  · -- it is the last statement that breaks off
    rw [hne, List.append_nil] at hreplaced
    obtain ⟨u, hu⟩ := ih fuel hreplaced hs hclasses (by simp only [partCost]; omega)
    exact ⟨u, Run.bind_failed hu⟩
  · obtain ⟨first, others, rfl, hfirstLines, hreplaced⟩ := hreplaced.split hne
    obtain ⟨t, hstatement, ht, htclasses⟩ :=
      completePart_of_block hfirst fuel hfirstLines hs hclasses
        (hreplaced.follows hbreaks hrest) (by simp only [partCost]; omega)
    obtain ⟨u, hu⟩ :=
      ih' fuel hreplaced ht htclasses (by simp only [partCost]; omega) stop hstop
    refine ⟨u, ?_⟩
    rw [Run.bind_done hstatement, Run.bind_failed hu]

theorem method {name : String} {params : List String} (hbreaks : Breaks ts line error)
    (hbody : Block true (depth + 1) classes rows (.statements nodes) classes')
    (hne : nodes ≠ [])
    (ih : BrokenPart ts line error true (depth + 1) classes rows (.statements nodes)) :
    BrokenPart ts line error inMethod depth classes
      (⟨depth, Grammar.methodHeader name params⟩ :: rows)
        (.method ⟨name, params, .body (.block nodes)⟩) := by
  intro fuel lines s hreplaced hs hclasses hfuel
  obtain ⟨header, lines, rfl, hrow, hreplaced⟩ :=
    hreplaced.cons (hbody.rows_ne_nil (by simpa using hne))
  have hparams := length_le_parameterTokens params
  simp only [rowsCost_cons, Grammar.methodHeader, List.length_cons, List.length_append,
    partCost] at hfuel
  obtain ⟨fuel, rfl⟩ : ∃ f, fuel = f + 1 := ⟨fuel - 1, by omega⟩
  obtain ⟨t, u, hnewline, hu, htclasses, hmethod⟩ :=
    method_of_header hrow hs (show params.length < fuel by omega)
  obtain ⟨v, hsuite⟩ := suite_of_replaced fuel hbreaks hreplaced hbody ih hnewline hu
    (htclasses.trans hclasses) (by omega)
  refine ⟨v, ?_⟩
  rw [hmethod, Run.bind_failed hsuite]

theorem lastMethod
    (ih : BrokenPart ts line error inMethod depth classes rows (.method found)) :
    BrokenPart ts line error inMethod depth classes rows (.methods [found]) := by
  intro fuel lines s hreplaced hs hclasses hfuel
  simp only [partCost] at hfuel
  obtain ⟨fuel, rfl⟩ : ∃ f, fuel = f + 1 := ⟨fuel - 1, by omega⟩
  obtain ⟨u, hu⟩ := ih fuel hreplaced hs hclasses (by simp only [partCost]; omega)
  refine ⟨u, ?_⟩
  rw [Parser.methods, Run.bind_failed hu]

theorem moreMethods (hbreaks : Breaks ts line error)
    (hfirst : Block inMethod depth classes rows (.method found) classes')
    (hrest : Block inMethod depth classes' rows' (.methods more) classes'')
    (ih : BrokenPart ts line error inMethod depth classes' rows' (.methods more)) :
    BrokenPart ts line error inMethod depth classes (rows ++ rows')
      (.methods (found :: more)) := by
  intro fuel lines s hreplaced hs hclasses hfuel
  have hcost := rowsCost_pos (hfirst.rows_ne_nil (by rintro ⟨⟩))
  simp only [rowsCost_append, partCost] at hfuel
  obtain ⟨fuel, rfl⟩ : ∃ f, fuel = f + 1 := ⟨fuel - 1, by omega⟩
  obtain ⟨first, others, rfl, hfirstLines, hreplaced⟩ :=
    hreplaced.split (hrest.rows_ne_nil (by rintro ⟨⟩))
  obtain ⟨t, hmethod, ht, htclasses⟩ :=
    completePart_of_block hfirst fuel hfirstLines hs hclasses
      (hreplaced.follows hbreaks hrest) (by simp only [partCost]; omega)
  obtain ⟨u, hu⟩ := ih fuel hreplaced ht htclasses (by simp only [partCost]; omega)
  -- another method stands at this depth, so the block does not end
  obtain ⟨second, others, rfl, hdepth, -⟩ := hreplaced.exists_first hbreaks hrest
  have hplain : endsBlock t.cursor.token = false :=
    endsBlock_of_plain (ht.isLayout_level hdepth)
  refine ⟨u, ?_⟩
  rw [Parser.methods, Run.bind_done hmethod, peek_bind, hplain]
  exact Run.bind_failed hu

end BrokenPart

/-- A part whose last line is replaced by one that is rejected is rejected with the same
error. -/
theorem brokenPart_of_block (hbreaks : Breaks ts line error) {part : Part}
    (h : Block inMethod depth classes rows part classes') :
    BrokenPart ts line error inMethod depth classes rows part := by
  induction h with
  | simple h => exact .simple hbreaks h
  | ifThen hcondition hyes hne ih => exact .ifThen hbreaks hcondition hyes hne ih
  | ifElse hcondition hyes hne hno hne' _ ih =>
    exact .ifElse hbreaks hcondition hyes hne hno hne' ih
  | declaration hparent hmethods ih => exact .declaration hbreaks hparent hmethods ih
  | noStatements =>
    rintro fuel lines s ⟨front, rest, -, hrows⟩
    exact absurd hrows.symm (by simp)
  | statements hfirst hrest ih ih' => exact .statements hbreaks hfirst hrest ih ih'
  | method hbody hne ih => exact .method hbreaks hbody hne ih
  | lastMethod _ ih => exact .lastMethod ih
  | moreMethods hfirst hrest _ ih => exact .moreMethods hbreaks hfirst hrest ih

end Mint.Parser

namespace Mint.Program

open Grammar Mint.Parser

theorem rowsCost_le_of_replaced {ts : List Token} {line : CodeLine} {error : ParseError}
    {rows : List Row} {lines : List CodeLine} (hbreaks : Breaks ts line error)
    (h : Replaced ts line rows lines) :
    rowsCost rows ≤ rowsCost (lines.map CodeLine.row) := by
  obtain ⟨front, rest, rfl, rfl⟩ := h
  have hlength := hbreaks.begins.length_le
  rw [List.map_append, List.map_cons, rowsCost_append, rowsCost_append, rowsCost_cons,
    rowsCost_cons, CodeLine.row]
  simp only [rowsCost]
  omega

/-- Where the last statement of an accepted program is replaced by a line that is
rejected, the source is. -/
theorem parse_of_replaced {source : Source} {lines : List CodeLine}
    (hlines : Lines source lines) {rows : List Row} {nodes : List Node}
    {classes : ClassTable} (hblock : Block false 0 ∅ rows (.statements nodes) classes)
    {ts : List Token} {line : CodeLine} {error : ParseError}
    (hbreaks : Breaks ts line error) (hreplaced : Replaced ts line rows lines) :
    parse source = .failed error := by
  obtain ⟨cursor, hcursor, hlength⟩ := exists_cursor hlines
  obtain ⟨-, -, hat⟩ := ParserState.at_ofSource hcursor ∅
  rw [show CodeLine.leading 0 source.physicalLines = (lines, none) from hlines] at hat
  have hcost := rowsCost_le_of_replaced hbreaks hreplaced
  have hfuel := rowsCost_le_flat 0 lines
  obtain ⟨u, hu⟩ :=
    brokenPart_of_block hbreaks hblock (parserFuel cursor.ahead.length) hreplaced hat rfl
      (by simp only [partCost, parserFuel]; omega) (· == Token.eof)
      (fun token htoken => by cases token <;> first | rfl | cases htoken)
  rw [parse, hcursor]
  simp only [ofCursor, parser]
  rw [Run.bind_failed hu]
  rfl

/-- The same in terms of physical lines: the last line of an accepted source gives way
to a line that is indented alike and is rejected. Lines behind it need not be
readable. -/
theorem parse_of_broken {source source' : Source} {program : Program}
    (h : parse source = .done program) {front rest : List (List UInt8)}
    {bytes bytes' : List UInt8} (hsource : source.physicalLines = front ++ [bytes])
    (hsource' : source'.physicalLines = front ++ bytes' :: rest) {spaces : Nat}
    {ts ts' : List Token} (hbytes : ContentLine.ofBytes? (front.length + 1) bytes =
      some ⟨front.length + 1, spaces, ts⟩)
    (hbytes' : ContentLine.ofBytes? (front.length + 1) bytes' =
      some ⟨front.length + 1, spaces, ts'⟩)
    {error : ParseError} (herror : error.line = front.length + 1)
    (hbreaks : ts ≠ [] → ∀ line : CodeLine,
      line.number = error.line → line.tokens = ts' → Breaks ts line error) :
    parse source' = .failed error := by
  obtain ⟨lines, hlines, hblock⟩ := parse_eq_done_iff.mp h
  have hchopped := Source.chopped_cut source.bytes
  have hchopped' := Source.chopped_cut source'.bytes
  rw [← Source.physicalLines, hsource] at hchopped
  rw [← Source.physicalLines, hsource', List.append_cons] at hchopped'
  -- the two lines stand at the same depth
  obtain ⟨line, hline, hcontent⟩ := CodeLine.exists_of_content hbytes hchopped (by simp)
  obtain ⟨line', hline', hcontent'⟩ :=
    CodeLine.exists_of_content hbytes' hchopped' (by simp)
  simp only [CodeLine.content, ContentLine.mk.injEq] at hcontent hcontent'
  obtain ⟨-, hspaces, htokens⟩ := hcontent
  obtain ⟨hnumber', hspaces', htokens'⟩ := hcontent'
  have hdepth : line.depth = line'.depth :=
    Nat.eq_of_mul_eq_mul_left (show 0 < Line.indentWidth by decide)
      (hspaces.trans hspaces'.symm)
  rw [Lines, hsource] at hlines
  obtain ⟨first, others, hfirst, hothers, rfl⟩ := CodeLine.exists_of_leading_append hlines
  rw [Nat.zero_add, CodeLine.leading_of_ok hline] at hothers
  obtain rfl : [line] = others := (Prod.mk.inj hothers).1
  -- up to the line that is rejected everything can be read
  let broken : Source := ⟨(front ++ [bytes']).flatten⟩
  have hbroken : broken.physicalLines = front ++ [bytes'] := hchopped'.left.cut_flatten
  have hlines' : Lines broken (first ++ [line']) := by
    rw [Lines, hbroken]
    refine CodeLine.leading_append hfirst ?_
    rw [Nat.zero_add, CodeLine.leading_of_ok hline']
    rfl
  have hreplaced :
      Replaced ts line' ((first ++ [line]).map CodeLine.row) (first ++ [line']) := by
    refine ⟨first, [], rfl, ?_⟩
    rw [List.map_append, List.map_singleton, CodeLine.row, hdepth, htokens]
  have hbreaks' :=
    hbreaks (htokens ▸ line.nonempty) line' (hnumber'.trans herror.symm) htokens'
  have hfailed := parse_of_replaced hlines' hblock hbreaks' hreplaced
  have hlength : broken.physicalLines.length =
    error.line := by rw [hbroken, herror, List.length_append]; rfl
  refine parse_of_take_eq (Nat.le_of_eq hlength.symm) ?_ hfailed
  rw [hsource', List.append_cons, ← hbroken, List.take_left' hlength,
    List.take_of_length_le (Nat.le_of_eq hlength)]

end Mint.Program
