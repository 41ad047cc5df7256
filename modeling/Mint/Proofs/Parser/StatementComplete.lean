import Mint.Proofs.Parser.ExpressionComplete
import Mint.Proofs.Parser.StatementSound

/-!
# Every block is read

Lines that are a part of a program by the grammar are read by the production of that
part, provided that the line behind them ends the part. The depth of a line alone
decides that: a part ends before a line that is less deep, and a statement also before
one that is as deep and is no `else`.
-/

namespace Mint

namespace Grammar

/-- A part begins at its own depth, and not with `else`. -/
theorem Block.head_row {inMethod : Bool} {depth : Nat} {classes classes' : ClassTable}
    {rows : List Row} {part : Part}
    (h : Block inMethod depth classes rows part classes') :
    ∀ row ∈ rows.head?,
      row.depth = depth ∧ row.tokens.head? ≠ some (.keyword .elseKw) := by
  induction h with
  | simple h =>
    obtain ⟨token, rest, rfl, htoken⟩ := h.starts
    rintro row ⟨⟩
    refine ⟨rfl, ?_⟩
    rintro ⟨⟩
    rcases htoken with h | h | h <;> cases h
  | ifThen | ifElse | declaration | method =>
    rintro row ⟨⟩
    exact ⟨rfl, by rintro ⟨⟩⟩
  | noStatements => rintro row ⟨⟩
  | @statements _ _ _ _ _ rows _ _ _ _ _ ih ih' =>
    cases rows with
    | nil => exact ih'
    | cons row rows => exact ih
  | lastMethod _ ih => exact ih
  | @moreMethods _ _ _ _ _ rows _ _ _ _ _ ih ih' =>
    cases rows with
    | nil => exact ih'
    | cons row rows => exact ih

theorem Block.rows_ne_nil {inMethod : Bool} {depth : Nat} {classes classes' : ClassTable}
    {rows : List Row} {part : Part} (h : Block inMethod depth classes rows part classes')
    (hpart : part ≠ .statements []) :
    rows ≠ [] := by
  induction h with
  | simple | ifThen | ifElse | declaration | method => exact List.cons_ne_nil _ _
  | noStatements => exact absurd rfl hpart
  | statements _ _ ih _ | moreMethods _ _ ih _ =>
    have hrows := ih (by rintro ⟨⟩)
    exact List.append_ne_nil_of_left_ne_nil hrows _
  | lastMethod _ ih => exact ih (by rintro ⟨⟩)

end Grammar

namespace Parser

open Grammar

variable {fuel : Nat} {s t u : ParserState} {inMethod : Bool}

/-! ## Lines -/

theorem simple_of_starts (h : starts .disjunction s.cursor.token = true) :
    simple fuel inMethod s = (do
      let start ← line
      let target ← expression fuel .disjunction
      if ← atChar '=' then
        assignment start target (expression fuel .disjunction)
      else
        return target : Parser Node) s := by
  rw [simple, peek_bind]
  cases htoken : s.cursor.token with
  | keyword word =>
    rw [htoken] at h
    cases word <;> first | rfl | cases h
  | _ => rfl

theorem expression_complete (fuel : Nat) {classes : ClassTable} {ts : List Token}
    {node : Node} (h : Spells classes ts (.expression .disjunction node))
    (hs : s.classes = classes) (hts : s.Takes ts u) (hfuel : 16 * ts.length + 9 ≤ fuel)
    (hnone : continues? u.cursor.token = none) :
    expression fuel .disjunction s = .done (node, u) :=
  complete_of_spells h fuel hs hts hfuel (stops_of_none hnone)

theorem ne_newline_of_starts {token : Token} (h : starts .disjunction token = true) :
    (token == Token.newline) = false := by
  rw [beq_eq_false_iff_ne]
  rintro rfl
  cases h

/-- A statement that begins with an expression. -/
theorem simple_of_target {target node : Node}
    (hstart : starts .disjunction s.cursor.token = true)
    (htarget : expression fuel .disjunction s = .done (target, t))
    (h : (if t.cursor.token.isChar '=' then
        assignment s.cursor.line target (expression fuel .disjunction)
      else pure target : Parser Node) t = .done (node, u)) :
    simple fuel inMethod s = .done (node, u) := by
  rw [simple_of_starts hstart, line_bind, Run.bind_done htarget, atChar_bind]
  exact h

theorem starts_of_takes {classes : ClassTable} {ts : List Token} {level : Level}
    {node : Node} (h : Spells classes ts (.expression level node)) (hts : s.Takes ts u) :
    starts level s.cursor.token = true := by
  obtain ⟨token, rest, rfl, htoken⟩ := h.starts
  rw [hts.head.1, htoken]

/-- An assignment to a dotted name of any length. -/
theorem simple_of_assignment (object : List String) {classes : ClassTable}
    {field : String} {ts us : List Token} {value : Node}
    (htarget : Spells classes ts (.expression .disjunction (.path (object ++ [field]))))
    (hvalue : Spells classes us (.expression .disjunction value))
    (hs : s.classes = classes) (hts : s.Takes (ts ++ .char '=' :: us) u)
    (hu : u.cursor.token = Token.newline)
    (hfuel : 16 * (ts.length + us.length) + 9 ≤ fuel) :
    simple fuel inMethod s =
      .done (match object with
        | [] => .assign field value
        | object => .setField object field value, u) := by
  obtain ⟨t, hts, hus, ht⟩ := hts.split
  obtain ⟨t', hadvance, hus', ht'⟩ := advance_of_takes hus
  have hchar := hus.head.1
  have htarget' := expression_complete fuel htarget hs hts (by omega) (by rw [hchar]; rfl)
  have hvalue' := expression_complete fuel hvalue (by rw [ht', ht, hs]) hus' (by omega)
    (by rw [hu]; rfl)
  refine simple_of_target (starts_of_takes htarget hts) htarget' ?_
  rw [if_pos (isChar_iff.mpr hchar)]
  simp only [assignment, List.getLast?_concat, List.dropLast_concat]
  rw [Run.bind_done hadvance, Run.bind_done hvalue']
  cases object <;> rfl

/-- A line of the grammar is read as the statement that it is. -/
theorem simple_complete {classes : ClassTable} {ts : List Token} {node : Node}
    (h : Simple inMethod classes ts node) (hs : s.classes = classes) (hts : s.Takes ts u)
    (hu : u.cursor.token = Token.newline) (hfuel : 16 * ts.length + 10 ≤ fuel) :
    simple fuel inMethod s = .done (node, u) := by
  cases h with
  | returnNone hmethod =>
    obtain ⟨s₁, hadvance, hend, -⟩ := advance_of_takes hts
    obtain rfl := hend.eq_of_nil
    rw [simple, peek_bind, hts.head.1]
    simp only [hmethod, if_true]
    rw [Run.bind_done hadvance, atToken_bind, hu]
    rfl
  | @returnValue ts node hmethod h =>
    obtain ⟨s₁, hadvance, hts₁, hs₁⟩ := advance_of_takes hts
    simp only [List.length_cons] at hfuel
    have hvalue :=
      expression_complete fuel h (hs₁.trans hs) hts₁ (by omega) (by rw [hu]; rfl)
    rw [simple, peek_bind, hts.head.1]
    simp only [hmethod, if_true]
    rw [Run.bind_done hadvance, atToken_bind,
      ne_newline_of_starts (starts_of_takes h hts₁)]
    simp only [Bool.false_eq_true, if_false]
    rw [Run.bind_done hvalue]
    rfl
  | printNothing =>
    obtain ⟨s₁, hadvance, hend, -⟩ := advance_of_takes hts
    obtain rfl := hend.eq_of_nil
    rw [simple, peek_bind, hts.head.1]
    simp only
    rw [Run.bind_done hadvance, atToken_bind, hu]
    rfl
  | @printValues ts nodes h =>
    obtain ⟨s₁, hadvance, hts₁, hs₁⟩ := advance_of_takes hts
    simp only [List.length_cons] at hfuel
    obtain ⟨token, rest, rfl, htoken⟩ := h.starts
    have hnodes := complete_of_spells h fuel (hs₁.trans hs) hts₁
      (by simp only [cost]; omega) (by rw [hu]; rfl) (by rw [hu]; rfl)
    rw [simple, peek_bind, hts.head.1]
    simp only
    rw [Run.bind_done hadvance, atToken_bind, hts₁.head.1, ne_newline_of_starts htoken]
    simp only [Bool.false_eq_true, if_false]
    rw [Run.bind_done hnodes]
    rfl
  | @assign ts us name node htarget hvalue =>
    simp only [List.length_append, List.length_cons] at hfuel
    exact simple_of_assignment [] htarget hvalue hs hts hu (by omega)
  | @setField ts us object field node hobject htarget hvalue =>
    simp only [List.length_append, List.length_cons] at hfuel
    cases object with
    | nil => exact absurd rfl hobject
    | cons segment object =>
      exact simple_of_assignment (segment :: object) htarget hvalue hs hts hu (by omega)
  | expression h =>
    have hnode := expression_complete fuel h hs hts (by omega) (by rw [hu]; rfl)
    refine simple_of_target (starts_of_takes h hts) hnode ?_
    rw [hu]
    rfl

theorem parent_complete {classes : ClassTable} {ts us : List Token}
    {found : Option ClassId} (h : Parent classes ts found) (hs : s.classes = classes)
    (hts : s.Takes (ts ++ .char ':' :: us) u) :
    ∃ t, parent s = .done (found, t) ∧ t.Takes (.char ':' :: us) u ∧
      t.classes = s.classes := by
  cases h with
  | root =>
    refine ⟨s, ?_, hts, rfl⟩
    have hcolon : s.cursor.token = .char ':' := hts.head.1
    rw [parent, atChar_bind, hcolon]
    rfl
  | child hcls =>
    obtain ⟨s₁, hadvance, hts₁, hs₁⟩ := advance_of_takes hts
    obtain ⟨s₂, hid, hts₂, hs₂⟩ := takeId_of_takes hts₁
    obtain ⟨s₃, hclose, hts₃, hs₃⟩ := takeChar_of_takes hts₂
    refine ⟨s₃, ?_, hts₃, by rw [hs₃, hs₂, hs₁]⟩
    rw [parent, atChar_bind, isChar_iff.mpr hts.head.1]
    simp only [if_true]
    rw [Run.bind_done hadvance, line_bind, Run.bind_done hid, latest?_bind, hs₂,
      hs₁, hs, hcls]
    simp only
    rw [Run.bind_done hclose]
    rfl

theorem parameters_complete {params : List String} {ts : List Token}
    (hfuel : params.length < fuel)
    (h : s.Takes (parameterTokens params ++ .char ')' :: ts) u) :
    ∃ t, parameters fuel s = .done (params, t) ∧ t.Takes (.char ')' :: ts) u ∧
      t.classes = s.classes := by
  induction params generalizing fuel s with
  | nil =>
    obtain ⟨fuel, rfl⟩ := Nat.exists_eq_add_one_of_ne_zero (Nat.ne_of_gt hfuel)
    refine ⟨s, ?_, h, rfl⟩
    have hclose : s.cursor.token = .char ')' := h.head.1
    rw [parameters, atChar_bind, hclose]
    rfl
  | cons param params ih =>
    obtain ⟨fuel, rfl⟩ := Nat.exists_eq_add_one_of_ne_zero (Nat.ne_zero_of_lt hfuel)
    obtain ⟨s₁, hadvance, h₁, hs₁⟩ := advance_of_takes h
    obtain ⟨s₂, hid, h₂, hs₂⟩ := takeId_of_takes h₁
    obtain ⟨t, hparams, ht, hclasses⟩ := ih (by simpa using hfuel) h₂
    refine ⟨t, ?_, ht, by rw [hclasses, hs₂, hs₁]⟩
    rw [parameters, atChar_bind, h.head.1]
    simp only [Token.isChar, BEq.rfl, if_true]
    rw [Run.bind_done hadvance, Run.bind_done hid, Run.bind_done hparams]
    rfl

theorem methodHeader_complete {name : String} {params : List String}
    (hfuel : params.length < fuel) (h : s.Takes (Grammar.methodHeader name params) u) :
    methodHeader fuel s = .done ((name, params), u) := by
  obtain ⟨s₁, hdef, h₁, -⟩ := take_of_takes h
  obtain ⟨s₂, hid, h₂, -⟩ := takeId_of_takes h₁
  obtain ⟨s₃, hopen, h₃, -⟩ := takeChar_of_takes h₂
  obtain ⟨s₄, hself, h₄, -⟩ := advance_of_takes h₃
  obtain ⟨s₅, hparams, h₅, -⟩ := parameters_complete hfuel h₄
  obtain ⟨s₆, hclose, h₆, -⟩ := takeChar_of_takes h₅
  obtain ⟨s₇, hcolon, h₇, -⟩ := takeChar_of_takes h₆
  obtain rfl := h₇.eq_of_nil
  rw [methodHeader, Run.bind_done hdef, Run.bind_done hid, Run.bind_done hopen, line_bind,
    atToken_bind, h₃.head.1]
  simp only [BEq.rfl, if_true]
  rw [Run.bind_done hself, Run.bind_done hparams, Run.bind_done hclose,
    Run.bind_done hcolon]
  rfl

/-! ## Blocks -/

theorem openBlock_complete (hnewline : s.Takes [Token.newline] t)
    (hindent : t.Takes [.layout .indent] u) :
    openBlock s = .done ((), u) := by
  obtain ⟨t', htake, hend, -⟩ := take_of_takes hnewline
  obtain rfl := hend.eq_of_nil
  obtain ⟨u', hadvance, hend', -⟩ := advance_of_takes hindent
  obtain rfl := hend'.eq_of_nil
  have hcheck :
      check (fun c => c.expect (.layout .indent)) t = .done (.layout .indent, t) := by
    refine check_of_ok ?_
    rw [Cursor.expect, hindent.head.1]
    rfl
  rw [openBlock, Run.bind_done htake, Run.bind_done hcheck]
  exact hadvance

/-- The production yields the value and leaves the parser before the lines, inside
`depth` blocks. -/
def Reaches {α : Type} (p : Parser α) (s : ParserState) (a : α) (depth : Nat)
    (rest : List CodeLine) (classes : ClassTable) : Prop :=
  ∃ u, p s = .done (a, u) ∧ u.At none depth rest ∧ u.classes = classes

/-- The lines do not continue a part at the depth. -/
def Follows (depth : Nat) (rest : List CodeLine) : Prop :=
  ∀ line ∈ rest.head?, line.depth ≤ depth ∧
    (line.depth = depth → line.tokens.head? ≠ some (.keyword .elseKw))

/-- The test holds before the lines and at no token proper. -/
structure EndsAt (stop : Token → Bool) (depth : Nat) (rest : List CodeLine) : Prop where
  before : ∀ u : ParserState, u.At none depth rest → stop u.cursor.token = true
  plain : ∀ token : Token, token.isLayout = false → stop token = false

/-- The fuel that lines pay for. -/
def rowsCost : List Row → Nat
  | [] => 0
  | row :: rows => 16 * (row.tokens.length + 1) + rowsCost rows

/-- The production of a part reads the lines before `rest`. -/
def ReachesPart (fuel : Nat) (inMethod : Bool) (s : ParserState) (depth : Nat)
    (rest : List CodeLine) (classes : ClassTable) : Part → Prop
  | .statement node => Reaches (statement fuel inMethod) s node depth rest classes
  | .statements nodes => ∀ stop, EndsAt stop depth rest →
    Reaches (statements fuel stop inMethod) s nodes depth rest classes
  | .method found => Reaches (method fuel) s found depth rest classes
  | .methods found =>
    EndsAt endsBlock depth rest → Reaches (methods fuel) s found depth rest classes

/-- The fuel that a part takes besides what its lines pay for. -/
def partCost : Part → Nat
  | .statement _ | .method _ => 0
  | .statements _ | .methods _ => 1

/-- Wherever the lines stand, the production of the part reads them. -/
def CompletePart (inMethod : Bool) (depth : Nat) (classes : ClassTable) (rows : List Row)
    (part : Part) (classes' : ClassTable) : Prop :=
  ∀ (fuel : Nat) ⦃lines rest : List CodeLine⦄ ⦃s : ParserState⦄,
    lines.map CodeLine.row = rows →
    s.At none depth (lines ++ rest) → s.classes = classes → Follows depth rest →
    rowsCost rows + partCost part ≤ fuel →
    ReachesPart fuel inMethod s depth rest classes' part

variable {depth : Nat} {rest : List CodeLine}

theorem endsAt_of_shallow (h : ∀ line ∈ rest.head?, line.depth ≤ depth) :
    EndsAt endsBlock (depth + 1) rest where
  before := fun _ hu => hu.endsBlock_iff.mpr h
  plain := fun token htoken => by cases token <;> first | rfl | cases htoken

theorem follows_of_shallow (h : ∀ line ∈ rest.head?, line.depth ≤ depth) :
    Follows (depth + 1) rest := by
  intro line hline
  have hdepth := h line hline
  exact ⟨by omega, fun heq => by omega⟩

theorem Follows.shallow (h : Follows depth rest) :
    ∀ line ∈ rest.head?, line.depth ≤ depth :=
  fun line hline => (h line hline).1

/-- A line with given tokens is passed to its end. -/
theorem exists_of_header {line : CodeLine} {lines : List CodeLine} {ts : List Token}
    (hs : s.At none depth (line :: lines))
    (hrow : line.row = ⟨depth, ts⟩) :
    ∃ t u, s.Takes ts t ∧ t.Takes [Token.newline] u ∧ u.At none depth lines ∧
      t.classes = s.classes ∧ u.classes = s.classes := by
  obtain ⟨hdepth, rfl⟩ : line.depth = depth ∧ line.tokens = ts := Row.mk.inj hrow
  obtain ⟨u, htakes, hu⟩ := hs.exists_line hdepth
  obtain ⟨t, hts, hnewline, ht⟩ := htakes.split
  exact ⟨t, u, hts, hnewline, hu, ht, htakes.classes_eq⟩

/-- The lines of a block stand one level deeper, so the block can be opened. -/
theorem exists_of_deeper {inMethod : Bool} {classes classes' : ClassTable}
    {rows : List Row} {part : Part} {lines : List CodeLine}
    (hblock : Block inMethod (depth + 1) classes rows part classes') (hne : rows ≠ [])
    (hlines : lines.map CodeLine.row = rows) (hs : s.At none depth (lines ++ rest)) :
    ∃ t, s.Takes [.layout .indent] t ∧ t.At none (depth + 1) (lines ++ rest) := by
  cases lines with
  | nil => exact absurd hlines.symm hne
  | cons line lines =>
    have hdepth := (hblock.head_row line.row (by rw [← hlines]; rfl)).1
    exact hs.exists_indent
      (by rw [show line.depth = depth + 1 from hdepth]; exact Nat.lt_succ_self depth)

/-- A suite is read if the statements in it are. -/
theorem suite_complete (fuel : Nat) {classes classes' : ClassTable} {rows : List Row}
    {nodes : List Node} {lines : List CodeLine}
    (hblock : Block inMethod (depth + 1) classes rows (.statements nodes) classes')
    (hne : nodes ≠ [])
    (ih : CompletePart inMethod (depth + 1) classes rows (.statements nodes) classes')
    (hlines : lines.map CodeLine.row = rows) (hnewline : s.Takes [Token.newline] t)
    (ht : t.At none depth (lines ++ rest)) (hclasses : s.classes = classes)
    (hrest : ∀ line ∈ rest.head?, line.depth ≤ depth) (hfuel : rowsCost rows + 2 ≤ fuel) :
    Reaches (suite fuel inMethod) s (.block nodes) depth rest classes' := by
  obtain ⟨fuel, rfl⟩ : ∃ f, fuel = f + 1 := ⟨fuel - 1, by omega⟩
  -- the first line of the block is deeper than the header, so an indentation stands
  -- before it
  have hrows : rows ≠ [] := hblock.rows_ne_nil (by simpa using hne)
  obtain ⟨v, hindent, hv⟩ := exists_of_deeper hblock hrows hlines ht
  have hv' : v.classes = classes := by
    rw [hindent.classes_eq, hnewline.classes_eq, hclasses]
  obtain ⟨w, hnodes, hw, hwclasses⟩ := ih fuel hlines hv hv' (follows_of_shallow hrest)
    (by simp only [partCost]; omega) endsBlock (endsAt_of_shallow hrest)
  -- what follows is no deeper than the header, so the block ends there
  obtain ⟨u, hclose, hu, huclasses⟩ := hw.exists_closeBlock hrest
  refine ⟨u, ?_, hu, by rw [huclasses, hwclasses]⟩
  rw [suite, Run.bind_done (openBlock_complete hnewline hindent), Run.bind_done hnodes,
    Run.bind_done hclose]
  rfl

theorem rowsCost_cons (row : Row) (rows : List Row) :
    rowsCost (row :: rows) = 16 * (row.tokens.length + 1) + rowsCost rows := rfl

theorem rowsCost_append (rows rows' : List Row) :
    rowsCost (rows ++ rows') = rowsCost rows + rowsCost rows' := by
  induction rows with
  | nil => exact (Nat.zero_add _).symm
  | cons row rows ih =>
    rw [List.cons_append, rowsCost_cons, rowsCost_cons, ih, Nat.add_assoc]

theorem rowsCost_pos {rows : List Row} (h : rows ≠ []) : 0 < rowsCost rows := by
  obtain ⟨row, rows, rfl⟩ := List.exists_cons_of_ne_nil h
  rw [rowsCost_cons]
  omega

theorem length_le_parameterTokens (params : List String) :
    params.length ≤ (parameterTokens params).length := by
  induction params with
  | nil => exact Nat.le_refl 0
  | cons param params ih =>
    rw [parameterTokens, List.flatMap_cons, List.length_append, ← parameterTokens]
    simp only [List.length_cons, List.length_nil]
    omega

/-- Lines that begin another part do not continue the one before it. -/
theorem follows_of_block {inMethod : Bool} {classes classes' : ClassTable}
    {rows : List Row} {part : Part} {lines : List CodeLine}
    (h : Block inMethod depth classes rows part classes')
    (hlines : lines.map CodeLine.row = rows) (hrest : Follows depth rest) :
    Follows depth (lines ++ rest) := by
  cases lines with
  | nil => exact hrest
  | cons line lines =>
    rintro l ⟨⟩
    have hrow := h.head_row line.row (by rw [← hlines]; rfl)
    exact ⟨Nat.le_of_eq hrow.1, fun _ => hrow.2⟩

/-- Before a part stands a token proper. -/
theorem isLayout_of_block {inMethod : Bool} {classes classes' : ClassTable}
    {rows : List Row} {part : Part} {lines : List CodeLine}
    (h : Block inMethod depth classes rows part classes') (hpart : part ≠ .statements [])
    (hlines : lines.map CodeLine.row = rows) (hs : s.At none depth (lines ++ rest)) :
    s.cursor.token.isLayout = false := by
  cases lines with
  | nil => exact absurd hlines.symm (h.rows_ne_nil hpart)
  | cons line lines =>
    exact hs.isLayout_level (h.head_row line.row (by rw [← hlines]; rfl)).1

theorem Follows.token_ne (h : Follows depth rest) (hs : s.At none depth rest) :
    s.cursor.token ≠ .keyword .elseKw := by
  intro htoken
  obtain ⟨line, rest, rfl, hdepth⟩ := hs.exists_level (by rw [htoken]; rfl)
  obtain ⟨more, htokens⟩ := hs.token_level hdepth
  exact (h line rfl).2 hdepth (by rw [htokens, htoken]; rfl)

theorem statement_of_line {token : Token} (hs : s.cursor.token = token)
    (htoken : token = .keyword .returnKw ∨ token = .keyword .printKw ∨
      starts .disjunction token = true) :
    statement (fuel + 1) inMethod s = (do
      let node ← simple fuel inMethod
      take Token.newline
      return node : Parser Node) s := by
  rw [statement, peek_bind, hs]
  cases token with
  | keyword word =>
    cases word <;> first | rfl | (rcases htoken with h | h | h <;> cases h)
  | _ => rfl

/-- A conditional up to its colon. -/
theorem statement_of_condition (fuel : Nat) {classes : ClassTable} {ts : List Token}
    {condition : Node} {line : CodeLine} {lines : List CodeLine}
    (hcondition : Spells classes ts (.expression .disjunction condition))
    (hrow : line.row = ⟨depth, conditionHeader ts⟩) (hs : s.At none depth (line :: lines))
    (hclasses : s.classes = classes) (hfuel : 16 * ts.length + 9 ≤ fuel) :
    ∃ t u, t.Takes [Token.newline] u ∧ u.At none depth lines ∧ t.classes = classes ∧
      statement (fuel + 2) inMethod s = (do
        let yes ← suite fuel inMethod
        if ← atToken (.keyword .elseKw) then
          advance
          takeChar ':'
          return .ifElse condition yes (← suite fuel inMethod)
        else
          return .ifThen condition yes : Parser Node) t := by
  obtain ⟨t, u, hts, hnewline, hu, htclasses, -⟩ := exists_of_header hs hrow
  obtain ⟨s₁, hadvance, hts₁, hs₁⟩ := advance_of_takes hts
  obtain ⟨s₂, hts₂, hcolon, hs₂⟩ := hts₁.split
  obtain ⟨t', htake, hend, -⟩ := takeChar_of_takes hcolon
  obtain rfl := hend.eq_of_nil
  have hexpression :=
    expression_complete fuel hcondition (by rw [hs₁, hclasses]) hts₂ hfuel
      (by rw [hcolon.head.1]; rfl)
  refine ⟨t, u, hnewline, hu, htclasses.trans hclasses, ?_⟩
  have hstatement :
      statement (fuel + 2) inMethod s = conditional (fuel + 1) inMethod s := by
    rw [statement, peek_bind, hts.head.1]
  rw [hstatement, conditional, Run.bind_done hadvance, Run.bind_done hexpression,
    Run.bind_done htake]

/-- The line before an alternative. -/
theorem alternative_of_header {α : Type} (no yes : Parser α) {line : CodeLine}
    {lines : List CodeLine} (hrow : line.row = ⟨depth, elseHeader⟩)
    (hs : s.At none depth (line :: lines)) :
    ∃ t u, t.Takes [Token.newline] u ∧ u.At none depth lines ∧ t.classes = s.classes ∧
      (do
        if ← atToken (.keyword .elseKw) then
          advance
          takeChar ':'
          no
        else
          yes : Parser α) s = no t := by
  obtain ⟨t, u, hts, hnewline, hu, htclasses, -⟩ := exists_of_header hs hrow
  obtain ⟨s₁, hadvance, hts₁, -⟩ := advance_of_takes hts
  obtain ⟨s₂, hcolon, hend, -⟩ := takeChar_of_takes hts₁
  obtain rfl := hend.eq_of_nil
  refine ⟨t, u, hnewline, hu, htclasses, ?_⟩
  rw [atToken_bind, hts.head.1]
  simp only [BEq.rfl, if_true]
  rw [Run.bind_done hadvance, Run.bind_done hcolon]

/-- A class up to its colon. -/
theorem statement_of_classHeader (fuel : Nat) {classes : ClassTable} {ts : List Token}
    {name : String} {found : Option ClassId} {line : CodeLine} {lines : List CodeLine}
    (hparent : Parent classes ts found) (hrow : line.row = ⟨depth, classHeader name ts⟩)
    (hs : s.At none depth (line :: lines)) (hclasses : s.classes = classes) :
    ∃ t u, t.Takes [Token.newline] u ∧ u.At none depth lines ∧ t.classes = classes ∧
      statement (fuel + 2) inMethod s = (do
        openBlock
        let methods ← methods fuel
        closeBlock
        return .define (← declare ⟨name, found, methods⟩) : Parser Node) t := by
  obtain ⟨t, u, hts, hnewline, hu, htclasses, -⟩ := exists_of_header hs hrow
  obtain ⟨s₁, hadvance, hts₁, hs₁⟩ := advance_of_takes hts
  obtain ⟨s₂, hid, hts₂, hs₂⟩ := takeId_of_takes hts₁
  obtain ⟨s₃, hparent', hts₃, hs₃⟩ :=
    parent_complete hparent (by rw [hs₂, hs₁, hclasses]) hts₂
  obtain ⟨s₄, hcolon, hend, -⟩ := takeChar_of_takes hts₃
  obtain rfl := hend.eq_of_nil
  refine ⟨t, u, hnewline, hu, htclasses.trans hclasses, ?_⟩
  have hstatement :
      statement (fuel + 2) inMethod s = Parser.declaration (fuel + 1) s := by
    rw [statement, peek_bind, hts.head.1]
  rw [hstatement, Parser.declaration, Run.bind_done hadvance, Run.bind_done hid,
    Run.bind_done hparent', Run.bind_done hcolon]

/-- A method up to its colon. -/
theorem method_of_header {name : String} {params : List String} {line : CodeLine}
    {lines : List CodeLine} (hrow : line.row = ⟨depth, Grammar.methodHeader name params⟩)
    (hs : s.At none depth (line :: lines)) (hfuel : params.length < fuel) :
    ∃ t u, t.Takes [Token.newline] u ∧ u.At none depth lines ∧ t.classes = s.classes ∧
      method (fuel + 1) s =
        (do return ⟨name, params, .body (← suite fuel true)⟩ : Parser Method) t := by
  obtain ⟨t, u, hts, hnewline, hu, htclasses, -⟩ := exists_of_header hs hrow
  have hheader : Parser.methodHeader fuel s = .done ((name, params), t) :=
    methodHeader_complete hfuel hts
  refine ⟨t, u, hnewline, hu, htclasses, ?_⟩
  rw [Parser.method, Run.bind_done hheader]

/-- A conditional up to where its alternative may stand. -/
theorem exists_of_condition (fuel : Nat) {classes classes' : ClassTable} {ts : List Token}
    {condition : Node} {rows : List Row} {nodes : List Node} {line : CodeLine}
    {lines : List CodeLine}
    (hcondition : Spells classes ts (.expression .disjunction condition))
    (hyes : Block inMethod (depth + 1) classes rows (.statements nodes) classes')
    (hne : nodes ≠ [])
    (ih : CompletePart inMethod (depth + 1) classes rows (.statements nodes) classes')
    (hrow : line.row = ⟨depth, conditionHeader ts⟩)
    (hlines : lines.map CodeLine.row = rows)
    (hs : s.At none depth (line :: (lines ++ rest))) (hclasses : s.classes = classes)
    (hrest : ∀ line ∈ rest.head?, line.depth ≤ depth)
    (hfuel : 16 * ts.length + rowsCost rows + 9 ≤ fuel) :
    ∃ v, statement (fuel + 2) inMethod s = (do
        if ← atToken (.keyword .elseKw) then
          advance
          takeChar ':'
          return .ifElse condition (.block nodes) (← suite fuel inMethod)
        else
          return .ifThen condition (.block nodes) : Parser Node) v ∧
      v.At none depth rest ∧ v.classes = classes' := by
  obtain ⟨t, u, hnewline, hu, htclasses, hstatement⟩ :=
    statement_of_condition fuel hcondition hrow hs hclasses (by omega)
  obtain ⟨v, hsuite, hv, hvclasses⟩ :=
    suite_complete fuel hyes hne ih hlines hnewline hu htclasses hrest (by omega)
  refine ⟨v, ?_, hv, hvclasses⟩
  rw [hstatement, Run.bind_done hsuite]

namespace CompletePart

variable {classes classes' classes'' : ClassTable} {ts : List Token}
  {rows rows' : List Row} {condition node : Node} {nodes nodes' : List Node}
  {found : Method} {more : List Method}

theorem simple (h : Simple inMethod classes ts node) :
    CompletePart inMethod depth classes [⟨depth, ts⟩] (.statement node) classes := by
  intro fuel lines rest s hlines hs hclasses hrest hfuel
  obtain ⟨line, rfl, hrow⟩ := List.map_eq_singleton_iff.mp hlines
  simp only [rowsCost_cons, partCost] at hfuel
  obtain ⟨fuel, rfl⟩ : ∃ f, fuel = f + 1 := ⟨fuel - 1, by omega⟩
  obtain ⟨t, u, hts, hnewline, hu, -, huclasses⟩ := exists_of_header hs hrow
  obtain ⟨u', htake, hend, -⟩ := take_of_takes hnewline
  obtain rfl := hend.eq_of_nil
  have hsimple : Parser.simple fuel inMethod s = .done (node, t) :=
    simple_complete h hclasses hts hnewline.head.1 (by omega)
  refine ⟨u, ?_, hu, huclasses.trans hclasses⟩
  obtain ⟨token, ts', rfl, htoken⟩ := h.starts
  rw [statement_of_line hts.head.1 htoken, Run.bind_done hsimple, Run.bind_done htake]
  rfl

theorem ifThen (hcondition : Spells classes ts (.expression .disjunction condition))
    (hyes : Block inMethod (depth + 1) classes rows (.statements nodes) classes')
    (hne : nodes ≠ [])
    (ih : CompletePart inMethod (depth + 1) classes rows (.statements nodes) classes') :
    CompletePart inMethod depth classes (⟨depth, conditionHeader ts⟩ :: rows)
      (.statement (.ifThen condition (.block nodes))) classes' := by
  intro fuel lines rest s hlines hs hclasses hrest hfuel
  obtain ⟨line, lines, rfl, hrow, hlines⟩ := List.map_eq_cons_iff.mp hlines
  simp only [rowsCost_cons, conditionHeader, List.length_cons, List.length_append,
    partCost] at hfuel
  obtain ⟨fuel, rfl⟩ : ∃ f, fuel = f + 2 := ⟨fuel - 2, by omega⟩
  obtain ⟨v, hstatement, hv, hvclasses⟩ :=
    exists_of_condition fuel hcondition hyes hne ih hrow hlines hs
      hclasses hrest.shallow (by omega)
  refine ⟨v, ?_, hv, hvclasses⟩
  -- no `else` of this depth follows
  have helse : (v.cursor.token == .keyword .elseKw) = false :=
    beq_eq_false_iff_ne.mpr (hrest.token_ne hv)
  rw [hstatement, atToken_bind, helse]
  rfl

theorem ifElse (hcondition : Spells classes ts (.expression .disjunction condition))
    (hyes : Block inMethod (depth + 1) classes rows (.statements nodes) classes')
    (hne : nodes ≠ [])
    (hno : Block inMethod (depth + 1) classes' rows' (.statements nodes') classes'')
    (hne' : nodes' ≠ [])
    (ihYes : CompletePart inMethod (depth + 1) classes rows (.statements nodes) classes')
    (ihNo : CompletePart inMethod (depth + 1) classes' rows'
      (.statements nodes') classes'') :
    CompletePart inMethod depth classes
      (⟨depth, conditionHeader ts⟩ :: (rows ++ ⟨depth, elseHeader⟩ :: rows'))
        (.statement (.ifElse condition (.block nodes) (.block nodes'))) classes'' := by
  intro fuel lines rest s hlines hs hclasses hrest hfuel
  obtain ⟨line, lines, rfl, hrow, hlines⟩ := List.map_eq_cons_iff.mp hlines
  obtain ⟨yes, lines, rfl, hyesLines, hlines⟩ := List.map_eq_append_iff.mp hlines
  obtain ⟨line', no, rfl, hrow', hnoLines⟩ := List.map_eq_cons_iff.mp hlines
  simp only [rowsCost_cons, rowsCost_append, conditionHeader, List.length_cons,
    List.length_append, partCost] at hfuel
  obtain ⟨fuel, rfl⟩ : ∃ f, fuel = f + 2 := ⟨fuel - 2, by omega⟩
  -- the `else` stands at the depth of the header and ends the first suite
  have hshallow : ∀ l ∈ (line' :: (no ++ rest)).head?, l.depth ≤ depth := by
    rintro l ⟨⟩
    exact Nat.le_of_eq (Row.mk.inj hrow').1
  have hs' : s.At none depth (line :: (yes ++ line' :: (no ++ rest))) := by simpa using hs
  obtain ⟨v, hstatement, hv, hvclasses⟩ :=
    exists_of_condition fuel hcondition hyes hne ihYes hrow hyesLines
      hs' hclasses hshallow (by omega)
  obtain ⟨t, u, hnewline, hu, htclasses, helse⟩ := alternative_of_header
    (do return Node.ifElse condition (.block nodes) (← suite fuel inMethod))
    (return Node.ifThen condition (.block nodes)) hrow' hv
  obtain ⟨w, hsuite, hw, hwclasses⟩ :=
    suite_complete fuel hno hne' ihNo hnoLines hnewline hu
      (htclasses.trans hvclasses) hrest.shallow (by omega)
  refine ⟨w, ?_, hw, hwclasses⟩
  rw [hstatement, helse, Run.bind_done hsuite]
  rfl

theorem declaration {name : String} {parent : Option ClassId}
    (hparent : Parent classes ts parent)
    (hmethods : Block inMethod (depth + 1) classes rows (.methods more) classes')
    (ih : CompletePart inMethod (depth + 1) classes rows (.methods more) classes') :
    CompletePart inMethod depth classes (⟨depth, classHeader name ts⟩ :: rows)
      (.statement (.define classes'.size)) (classes'.push ⟨name, parent, more⟩) := by
  intro fuel lines rest s hlines hs hclasses hrest hfuel
  obtain ⟨line, lines, rfl, hrow, hlines⟩ := List.map_eq_cons_iff.mp hlines
  simp only [rowsCost_cons, classHeader, List.length_cons, List.length_append,
    partCost] at hfuel
  obtain ⟨fuel, rfl⟩ : ∃ f, fuel = f + 2 := ⟨fuel - 2, by omega⟩
  obtain ⟨t, u, hnewline, hu, htclasses, hstatement⟩ :=
    statement_of_classHeader fuel hparent hrow hs hclasses
  obtain ⟨v, hindent, hv⟩ :=
    exists_of_deeper hmethods (hmethods.rows_ne_nil (by simp)) hlines hu
  have hv' : v.classes = classes := by
    rw [hindent.classes_eq, hnewline.classes_eq, htclasses]
  obtain ⟨w, hmore, hw, hwclasses⟩ :=
    ih fuel hlines hv hv' (follows_of_shallow hrest.shallow)
      (by simp only [partCost]; omega) (endsAt_of_shallow hrest.shallow)
  obtain ⟨x, hclose, hx, hxclasses⟩ := hw.exists_closeBlock hrest.shallow
  have hx' : x.classes = classes' := by rw [hxclasses, hwclasses]
  refine ⟨{ x with classes := x.classes.push ⟨name, parent, more⟩ }, ?_,
    ⟨hx.stream, hx.closed⟩, by rw [hx']⟩
  rw [hstatement, Run.bind_done (openBlock_complete hnewline hindent),
    Run.bind_done hmore, Run.bind_done hclose, ← hx']
  rfl

theorem noStatements :
    CompletePart inMethod depth classes [] (.statements []) classes := by
  intro fuel lines rest s hlines hs hclasses hrest hfuel stop hstop
  obtain rfl := List.map_eq_nil_iff.mp hlines
  simp only [partCost] at hfuel
  obtain ⟨fuel, rfl⟩ : ∃ f, fuel = f + 1 := ⟨fuel - 1, by omega⟩
  refine ⟨s, ?_, hs, hclasses⟩
  rw [Parser.statements, peek_bind, hstop.before s hs]
  rfl

theorem statements (hfirst : Block inMethod depth classes rows (.statement node) classes')
    (hrest : Block inMethod depth classes' rows' (.statements nodes) classes'')
    (ihFirst : CompletePart inMethod depth classes rows (.statement node) classes')
    (ihRest : CompletePart inMethod depth classes' rows' (.statements nodes) classes'') :
    CompletePart inMethod depth classes (rows ++ rows')
      (.statements (node :: nodes)) classes'' := by
  intro fuel lines rest s hlines hs hclasses hfollows hfuel stop hstop
  obtain ⟨first, others, rfl, hfirstLines, hothers⟩ := List.map_eq_append_iff.mp hlines
  have hcost := rowsCost_pos (hfirst.rows_ne_nil (by rintro ⟨⟩))
  simp only [rowsCost_append, partCost] at hfuel
  obtain ⟨fuel, rfl⟩ : ∃ f, fuel = f + 1 := ⟨fuel - 1, by omega⟩
  rw [List.append_assoc] at hs
  have hfollows' := follows_of_block hrest hothers hfollows
  obtain ⟨t, hstatement, ht, htclasses⟩ := ihFirst fuel hfirstLines hs hclasses hfollows'
    (by simp only [partCost]; omega)
  obtain ⟨u, hstatements, hu, huclasses⟩ := ihRest fuel hothers ht htclasses hfollows
    (by simp only [partCost]; omega) stop hstop
  refine ⟨u, ?_, hu, huclasses⟩
  have hplain := hstop.plain _ (isLayout_of_block hfirst (by rintro ⟨⟩) hfirstLines hs)
  rw [Parser.statements, peek_bind, hplain]
  simp only [Bool.false_eq_true, if_false]
  rw [Run.bind_done hstatement, Run.bind_done hstatements]
  rfl

theorem method {name : String} {params : List String}
    (hbody : Block true (depth + 1) classes rows (.statements nodes) classes')
    (hne : nodes ≠ [])
    (ih : CompletePart true (depth + 1) classes rows (.statements nodes) classes') :
    CompletePart inMethod depth classes
      (⟨depth, Grammar.methodHeader name params⟩ :: rows)
        (.method ⟨name, params, .body (.block nodes)⟩) classes' := by
  intro fuel lines rest s hlines hs hclasses hrest hfuel
  obtain ⟨line, lines, rfl, hrow, hlines⟩ := List.map_eq_cons_iff.mp hlines
  have hparams := length_le_parameterTokens params
  simp only [rowsCost_cons, Grammar.methodHeader, List.length_cons, List.length_append,
    partCost] at hfuel
  obtain ⟨fuel, rfl⟩ : ∃ f, fuel = f + 1 := ⟨fuel - 1, by omega⟩
  obtain ⟨t, u, hnewline, hu, htclasses, hmethod⟩ :=
    method_of_header hrow hs (show params.length < fuel by omega)
  obtain ⟨v, hsuite, hv, hvclasses⟩ := suite_complete fuel hbody hne ih hlines hnewline hu
    (htclasses.trans hclasses) hrest.shallow (by omega)
  refine ⟨v, ?_, hv, hvclasses⟩
  rw [hmethod, Run.bind_done hsuite]
  rfl

theorem lastMethod
    (ih : CompletePart inMethod depth classes rows (.method found) classes') :
    CompletePart inMethod depth classes rows (.methods [found]) classes' := by
  intro fuel lines rest s hlines hs hclasses hrest hfuel hends
  simp only [partCost] at hfuel
  obtain ⟨fuel, rfl⟩ : ∃ f, fuel = f + 1 := ⟨fuel - 1, by omega⟩
  obtain ⟨u, hmethod, hu, huclasses⟩ :=
    ih fuel hlines hs hclasses hrest (by simp only [partCost]; omega)
  refine ⟨u, ?_, hu, huclasses⟩
  rw [Parser.methods, Run.bind_done hmethod, peek_bind, hends.before u hu]
  rfl

theorem moreMethods (hfirst : Block inMethod depth classes rows (.method found) classes')
    (hrest : Block inMethod depth classes' rows' (.methods more) classes'')
    (ihFirst : CompletePart inMethod depth classes rows (.method found) classes')
    (ihRest : CompletePart inMethod depth classes' rows' (.methods more) classes'') :
    CompletePart inMethod depth classes (rows ++ rows')
      (.methods (found :: more)) classes'' := by
  intro fuel lines rest s hlines hs hclasses hfollows hfuel hends
  obtain ⟨first, others, rfl, hfirstLines, hothers⟩ := List.map_eq_append_iff.mp hlines
  have hcost := rowsCost_pos (hfirst.rows_ne_nil (by rintro ⟨⟩))
  simp only [rowsCost_append, partCost] at hfuel
  obtain ⟨fuel, rfl⟩ : ∃ f, fuel = f + 1 := ⟨fuel - 1, by omega⟩
  rw [List.append_assoc] at hs
  have hfollows' := follows_of_block hrest hothers hfollows
  obtain ⟨t, hmethod, ht, htclasses⟩ := ihFirst fuel hfirstLines hs hclasses hfollows'
    (by simp only [partCost]; omega)
  obtain ⟨u, hmethods, hu, huclasses⟩ := ihRest fuel hothers ht htclasses hfollows
    (by simp only [partCost]; omega) hends
  refine ⟨u, ?_, hu, huclasses⟩
  have hplain := hends.plain _ (isLayout_of_block hrest (by rintro ⟨⟩) hothers ht)
  rw [Parser.methods, Run.bind_done hmethod, peek_bind, hplain]
  simp only [Bool.false_eq_true, if_false]
  rw [Run.bind_done hmethods]
  rfl

end CompletePart

/-- What the grammar calls a part of a program is read by the production of that part. -/
theorem completePart_of_block {inMethod : Bool} {depth : Nat}
    {classes classes' : ClassTable} {rows : List Row} {part : Part}
    (h : Block inMethod depth classes rows part classes') :
    CompletePart inMethod depth classes rows part classes' := by
  induction h with
  | simple h => exact .simple h
  | ifThen hcondition hyes hne ih => exact .ifThen hcondition hyes hne ih
  | ifElse hcondition hyes hne hno hne' ih ih' =>
    exact .ifElse hcondition hyes hne hno hne' ih ih'
  | declaration hparent hmethods ih => exact .declaration hparent hmethods ih
  | noStatements => exact .noStatements
  | statements hfirst hrest ih ih' => exact .statements hfirst hrest ih ih'
  | method hbody hne ih => exact .method hbody hne ih
  | lastMethod _ ih => exact .lastMethod ih
  | moreMethods hfirst hrest ih ih' => exact .moreMethods hfirst hrest ih ih'

end Parser

end Mint
