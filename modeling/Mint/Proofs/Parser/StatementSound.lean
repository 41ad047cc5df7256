import Mint.Proofs.Parser.ExpressionSound
import Mint.Proofs.Parser.Lines
import Mint.Proofs.Grammar.Tokens

/-!
# What statements are read from

A production for statements or declarations that succeeds has read whole lines, and
these lines are what it yields. As for expressions, the argument is one step for each
production (`BlocksSound`). The depth at which the parser stands before lines is the
number of blocks that it has opened and not yet closed.
-/

namespace Mint

namespace Grammar

theorem plain_parameterTokens (params : List String) :
    Plain (parameterTokens params) := by
  induction params with
  | nil => exact .nil
  | cons param params ih => exact .cons rfl (.cons rfl ih)

theorem Simple.plain {inMethod : Bool} {classes : ClassTable} {ts : List Token}
    {node : Node} (h : Simple inMethod classes ts node) : Plain ts := by
  cases h with
  | returnNone | printNothing => exact .cons rfl .nil
  | returnValue _ h | printValues h => exact .cons rfl h.plain
  | assign htarget hvalue | setField _ htarget hvalue =>
    exact htarget.plain.append (.cons rfl hvalue.plain)
  | expression h => exact h.plain

/-- What a statement on one line can begin with. -/
theorem Simple.starts {inMethod : Bool} {classes : ClassTable} {ts : List Token}
    {node : Node} (h : Simple inMethod classes ts node) :
    ∃ token rest, ts = token :: rest ∧
      (token = .keyword .returnKw ∨ token = .keyword .printKw ∨
        Grammar.starts .disjunction token = true) := by
  cases h with
  | returnNone | returnValue => exact ⟨_, _, rfl, .inl rfl⟩
  | printNothing | printValues => exact ⟨_, _, rfl, .inr (.inl rfl)⟩
  | assign h | setField _ h =>
    obtain ⟨token, rest, rfl, htoken⟩ := h.starts
    exact ⟨token, _, rfl, .inr (.inr htoken)⟩
  | expression h =>
    obtain ⟨token, rest, rfl, htoken⟩ := h.starts
    exact ⟨token, rest, rfl, .inr (.inr htoken)⟩

theorem Simple.nonempty {inMethod : Bool} {classes : ClassTable} {ts : List Token}
    {node : Node} (h : Simple inMethod classes ts node) : ts ≠ [] := by
  obtain ⟨token, rest, rfl, -⟩ := h.starts
  exact List.cons_ne_nil token rest

theorem rows_of_statements_nil {inMethod : Bool} {depth : Nat}
    {classes classes' : ClassTable} {rows : List Row}
    (h : Block inMethod depth classes rows (.statements []) classes') : rows = [] := by
  cases h
  rfl

theorem Parent.plain {classes : ClassTable} {ts : List Token} {parent : Option ClassId}
    (h : Parent classes ts parent) : Plain ts := by
  cases h with
  | root => exact .nil
  | child => exact .cons rfl (.cons rfl (.cons rfl .nil))

end Grammar

namespace Parser

open Grammar

variable {fuel : Nat} {s u : ParserState} {inMethod : Bool}

/-! ## Lines -/

theorem assignment_sound {start : Nat} {target node : Node} {ts : List Token}
    (hs : s.cursor.Closed)
    (htarget : Spells s.classes ts (.expression .disjunction target))
    (hchar : s.cursor.token = .char '=')
    (h : assignment start target (expression fuel .disjunction) s = .done (node, u)) :
    ∃ us, s.Takes (.char '=' :: us) u ∧
      Simple inMethod s.classes (ts ++ .char '=' :: us) node := by
  cases target with
  | path segments =>
    cases hlast : segments.getLast? with
    | none =>
      simp only [assignment, hlast] at h
      cases h
    | some last =>
      obtain ⟨object, rfl⟩ := List.getLast?_eq_some_iff.mp hlast
      simp only [assignment, hlast, List.dropLast_concat, Run.bind_eq_done_iff] at h
      obtain ⟨_, s₁, hadvance, value, s₂, hvalue, h⟩ := h
      have h₁ := takes_of_advance hs hchar (by simp) hadvance
      obtain ⟨us, hus, hspells⟩ := (sound fuel).expression (h₁.closed hs) hvalue
      rw [h₁.classes_eq] at hspells
      cases object with
      | nil =>
        cases h
        exact ⟨us, h₁.trans hus, .assign htarget hspells⟩
      | cons segment object =>
        cases h
        exact ⟨us, h₁.trans hus, .setField (List.cons_ne_nil _ _) htarget hspells⟩
  | _ => cases h

theorem simple_sound {node : Node} (hs : s.cursor.Closed)
    (h : simple fuel inMethod s = .done (node, u)) :
    ∃ ts, s.Takes ts u ∧ Simple inMethod s.classes ts node := by
  -- every token but two keywords leads to a statement that begins with an expression
  have other : (do
      let start ← line
      let target ← expression fuel .disjunction
      if ← atChar '=' then
        assignment start target (expression fuel .disjunction)
      else
        return target : Parser Node) s = .done (node, u) →
      ∃ ts, s.Takes ts u ∧ Simple inMethod s.classes ts node := by
    intro h
    simp only [line_bind, atChar_bind, Run.bind_eq_done_iff] at h
    obtain ⟨target, s₁, htarget, h⟩ := h
    obtain ⟨ts, hts, hspells⟩ := (sound fuel).expression hs htarget
    split at h
    · next hchar =>
      rw [← hts.classes_eq] at hspells
      obtain ⟨us, hus, hsimple⟩ :=
        assignment_sound (hts.closed hs) hspells (isChar_iff.mp hchar) h
      rw [hts.classes_eq] at hsimple
      exact ⟨_, hts.trans hus, hsimple⟩
    · cases h
      exact ⟨ts, hts, .expression hspells⟩
  rw [simple, peek_bind] at h
  cases htoken : s.cursor.token with
  | keyword word =>
    rw [htoken] at h
    cases word with
    | returnKw =>
      cases inMethod with
      | false => cases h
      | true =>
        simp only [if_true, atToken_bind, Run.bind_eq_done_iff] at h
        obtain ⟨_, s₁, hadvance, h⟩ := h
        have h₁ := takes_of_advance hs htoken (by simp) hadvance
        split at h
        · cases h
          exact ⟨_, h₁, .returnNone rfl⟩
        · simp only [Run.bind_eq_done_iff, Run.pure_eq_done_iff] at h
          obtain ⟨value, s₂, hvalue, heq⟩ := h
          cases heq
          obtain ⟨ts, hts, hspells⟩ := (sound fuel).expression (h₁.closed hs) hvalue
          rw [h₁.classes_eq] at hspells
          exact ⟨_, h₁.trans hts, .returnValue rfl hspells⟩
    | printKw =>
      simp only [atToken_bind, Run.bind_eq_done_iff] at h
      obtain ⟨_, s₁, hadvance, h⟩ := h
      have h₁ := takes_of_advance hs htoken (by simp) hadvance
      split at h
      · cases h
        exact ⟨_, h₁, .printNothing⟩
      · simp only [Run.bind_eq_done_iff, Run.pure_eq_done_iff] at h
        obtain ⟨nodes, s₂, hnodes, heq⟩ := h
        cases heq
        obtain ⟨ts, hts, hspells⟩ := (sound fuel).expressions (h₁.closed hs) hnodes
        rw [h₁.classes_eq] at hspells
        exact ⟨_, h₁.trans hts, .printValues hspells⟩
    | _ => exact other h
  | _ =>
    rw [htoken] at h
    exact other h

theorem parent_sound {found : Option ClassId} (hs : s.cursor.Closed)
    (h : parent s = .done (found, u)) :
    ∃ ts, s.Takes ts u ∧ Parent s.classes ts found := by
  rw [parent, atChar_bind] at h
  split at h
  · next hopen =>
    simp only [line_bind, latest?_bind, Run.bind_eq_done_iff] at h
    obtain ⟨_, s₁, hadvance, name, s₂, hid, h⟩ := h
    have h₁ := takes_of_advance hs (isChar_iff.mp hopen) (by simp) hadvance
    have h₂ := h₁.trans (takes_of_takeId (h₁.closed hs) hid)
    cases hcls : s₂.classes.latest? name with
    | none =>
      rw [hcls] at h
      cases h
    | some cls =>
      rw [hcls] at h
      simp only [Run.bind_eq_done_iff, Run.pure_eq_done_iff] at h
      obtain ⟨_, s₃, hclose, heq⟩ := h
      cases heq
      rw [h₂.classes_eq] at hcls
      exact ⟨_, h₂.trans (takes_of_takeChar (h₂.closed hs) hclose), .child hcls⟩
  · cases h
    exact ⟨[], .nil, .root⟩

theorem parameters_sound {params : List String} (hs : s.cursor.Closed)
    (h : parameters fuel s = .done (params, u)) : s.Takes (parameterTokens params) u := by
  induction fuel generalizing s params with
  | zero => cases h
  | succ fuel ih =>
    rw [parameters, atChar_bind] at h
    split at h
    · next hcomma =>
      simp only [Run.bind_eq_done_iff, Run.pure_eq_done_iff] at h
      obtain ⟨_, s₁, hadvance, param, s₂, hid, rest, s₃, hrest, heq⟩ := h
      cases heq
      have h₁ := takes_of_advance hs (isChar_iff.mp hcomma) (by simp) hadvance
      have h₂ := h₁.trans (takes_of_takeId (h₁.closed hs) hid)
      exact h₂.trans (ih (h₂.closed hs) hrest)
    · cases h
      exact .nil

theorem plain_methodHeader (name : String) (params : List String) :
    Plain (Grammar.methodHeader name params) :=
  .cons rfl (.cons rfl (.cons rfl
    (.cons rfl ((plain_parameterTokens params).append (.cons rfl (.cons rfl .nil))))))

theorem methodHeader_sound {name : String} {params : List String} (hs : s.cursor.Closed)
    (h : methodHeader fuel s = .done ((name, params), u)) :
    s.Takes (Grammar.methodHeader name params) u := by
  simp only [methodHeader, line_bind, atToken_bind, Run.bind_eq_done_iff] at h
  obtain ⟨_, s₁, hdef, name', s₂, hid, _, s₃, hopen, h⟩ := h
  have h₁ := takes_of_take hs (by simp) hdef
  have h₂ := h₁.trans (takes_of_takeId (h₁.closed hs) hid)
  have h₃ := h₂.trans (takes_of_takeChar (h₂.closed hs) hopen)
  split at h
  · next hself =>
    simp only [Run.bind_eq_done_iff, Run.pure_eq_done_iff] at h
    obtain ⟨_, s₄, hadvance, params', s₅, hparams, _, s₆, hclose, _, s₇, hcolon, heq⟩ := h
    cases heq
    have h₄ :=
      h₃.trans (takes_of_advance (h₃.closed hs) (beq_iff_eq.mp hself) (by simp) hadvance)
    have h₅ := parameters_sound (h₄.closed hs) hparams
    have h₆ := takes_of_takeChar (h₅.closed (h₄.closed hs)) hclose
    have h₇ := h₆.trans (takes_of_takeChar (h₆.closed (h₅.closed (h₄.closed hs))) hcolon)
    exact h₄.trans (h₅.trans h₇)
  · cases h

/-! Headers, from the steps of the productions that read them. -/

theorem conditionHeader_sound {condition : Node} {s₁ s₂ s₃ : ParserState}
    (hs : s.cursor.Closed) (htoken : s.cursor.token = .keyword .ifKw)
    (hadvance : advance s = .done ((), s₁))
    (hcondition : expression fuel .disjunction s₁ = .done (condition, s₂))
    (hcolon : takeChar ':' s₂ = .done ((), s₃)) :
    ∃ ts, s.Takes (conditionHeader ts) s₃ ∧
      Spells s.classes ts (.expression .disjunction condition) ∧
      Plain (conditionHeader ts) := by
  have h₁ := takes_of_advance hs htoken (by simp) hadvance
  obtain ⟨ts, hts, hspells⟩ := (sound fuel).expression (h₁.closed hs) hcondition
  rw [h₁.classes_eq] at hspells
  have h₂ := h₁.trans hts
  refine ⟨ts, ?_, hspells, .cons rfl (hspells.plain.append (.cons rfl .nil))⟩
  simpa [conditionHeader] using h₂.trans (takes_of_takeChar (h₂.closed hs) hcolon)

theorem elseHeader_sound {s₁ s₂ : ParserState} (hs : s.cursor.Closed)
    (htoken : (s.cursor.token == .keyword .elseKw) = true)
    (hadvance : advance s = .done ((), s₁)) (hcolon : takeChar ':' s₁ = .done ((), s₂)) :
    s.Takes elseHeader s₂ ∧ Plain elseHeader := by
  have h₁ := takes_of_advance hs (beq_iff_eq.mp htoken) (by simp) hadvance
  exact ⟨h₁.trans (takes_of_takeChar (h₁.closed hs) hcolon), .cons rfl (.cons rfl .nil)⟩

theorem classHeader_sound {name : String} {found : Option ClassId}
    {s₁ s₂ s₃ s₄ : ParserState} (hs : s.cursor.Closed)
    (htoken : s.cursor.token = .keyword .classKw) (hadvance : advance s = .done ((), s₁))
    (hid : takeId s₁ = .done (name, s₂)) (hparent : parent s₂ = .done (found, s₃))
    (hcolon : takeChar ':' s₃ = .done ((), s₄)) :
    ∃ ts, s.Takes (classHeader name ts) s₄ ∧ Parent s.classes ts found ∧
      Plain (classHeader name ts) := by
  have h₁ := takes_of_advance hs htoken (by simp) hadvance
  have h₂ := h₁.trans (takes_of_takeId (h₁.closed hs) hid)
  obtain ⟨ts, hts, hparent⟩ := parent_sound (h₂.closed hs) hparent
  rw [h₂.classes_eq] at hparent
  have h₃ := h₂.trans hts
  refine ⟨ts, ?_, hparent, .cons rfl (.cons rfl (hparent.plain.append (.cons rfl .nil)))⟩
  simpa [classHeader] using h₃.trans (takes_of_takeChar (h₃.closed hs) hcolon)

/-! ## Blocks -/

theorem indent_sound {token : Token} {t : ParserState} (hs : s.cursor.Closed)
    (hcheck : check (·.expect (.layout .indent)) s = .done (token, t))
    (hadvance : advance t = .done ((), u)) :
    s.Takes [.layout .indent] u := by
  obtain ⟨hok, rfl⟩ := ok_of_check hcheck
  exact takes_of_advance hs (token_of_expect_indent hok) (by simp) hadvance

theorem openBlock_sound (hs : s.cursor.Closed) (h : openBlock s = .done ((), u)) :
    ∃ t, s.Takes [Token.newline] t ∧ t.Takes [.layout .indent] u := by
  simp only [openBlock, Run.bind_eq_done_iff] at h
  obtain ⟨_, s₁, hnewline, token, s₂, hcheck, hadvance⟩ := h
  have h₁ := takes_of_take hs (by simp) hnewline
  exact ⟨s₁, h₁, indent_sound (h₁.closed hs) hcheck hadvance⟩

/-- On the way from one state to the other some of the lines were read, and they are a
part at the level. The parser is inside `depth` blocks again. -/
def ReadsLines (e : Option LexError) (depth level : Nat) (inMethod : Bool)
    (lines : List CodeLine) (s u : ParserState) (part : Part) : Prop :=
  ∃ used rest, lines = used ++ rest ∧ u.At e depth rest ∧
    Block inMethod level s.classes (used.map CodeLine.row) part u.classes

/-- What the productions for statements and declarations yield with the given fuel is
read from the lines before which they stand. -/
structure BlocksSound (fuel : Nat) : Prop where
  statement : ∀ {e depth inMethod lines node s u}, s.At e depth lines →
    statement fuel inMethod s = .done (node, u) →
    ReadsLines e depth depth inMethod lines s u (.statement node)
  statements : ∀ {e depth stop inMethod lines nodes s u}, s.At e depth lines →
    statements fuel stop inMethod s = .done (nodes, u) →
    ReadsLines e depth depth inMethod lines s u (.statements nodes) ∧
    stop u.cursor.token = true
  suite : ∀ {inMethod node s u},
    s.cursor.Closed → suite fuel inMethod s = .done (node, u) →
    ∃ t, s.Takes [Token.newline] t ∧ ∀ {e depth lines}, t.At e depth lines →
      ∃ nodes, node = .block nodes ∧ nodes ≠ [] ∧
        ReadsLines e depth (depth + 1) inMethod lines t u (.statements nodes)
  conditional : ∀ {e depth inMethod lines node s u},
    s.At e depth lines → s.cursor.token = .keyword .ifKw →
    conditional fuel inMethod s = .done (node, u) →
    ReadsLines e depth depth inMethod lines s u (.statement node)
  declaration : ∀ {e depth inMethod lines node s u},
    s.At e depth lines → s.cursor.token = .keyword .classKw →
    declaration fuel s = .done (node, u) →
    ReadsLines e depth depth inMethod lines s u (.statement node)
  methods : ∀ (inMethod : Bool) {e depth lines found s u},
    s.At e depth lines → methods fuel s = .done (found, u) →
    ReadsLines e depth depth inMethod lines s u (.methods found) ∧
    endsBlock u.cursor.token = true
  method : ∀ (inMethod : Bool) {e depth lines found s u},
    s.At e depth lines → method fuel s = .done (found, u) →
    ReadsLines e depth depth inMethod lines s u (.method found)

variable {e : Option LexError} {depth : Nat} {lines : List CodeLine} {node : Node}
  {nodes : List Node}

theorem statement_sound (ih : BlocksSound fuel) (hs : s.At e depth lines)
    (h : statement (fuel + 1) inMethod s = .done (node, u)) :
    ReadsLines e depth depth inMethod lines s u (.statement node) := by
  have other : (do
      let node ← simple fuel inMethod
      take Token.newline
      return node : Parser Node) s = .done (node, u) →
      ReadsLines e depth depth inMethod lines s u (.statement node) := by
    intro h
    simp only [Run.bind_eq_done_iff, Run.pure_eq_done_iff] at h
    obtain ⟨node', s₁, hsimple, _, s₂, hnewline, heq⟩ := h
    cases heq
    obtain ⟨ts, hts, hline⟩ := simple_sound hs.closed hsimple
    have htakes := hts.trans (takes_of_take (hts.closed hs.closed) (by simp) hnewline)
    obtain ⟨line, rest, rfl, hrow, hu⟩ := hs.takes_line htakes hline.nonempty hline.plain
    refine ⟨[line], rest, rfl, hu, ?_⟩
    rw [htakes.classes_eq, List.map_singleton, hrow]
    exact .simple hline
  rw [statement, peek_bind] at h
  cases htoken : s.cursor.token with
  | keyword word =>
    rw [htoken] at h
    cases word with
    | classKw => exact ih.declaration hs htoken h
    | ifKw => exact ih.conditional hs htoken h
    | _ => exact other h
  | _ =>
    rw [htoken] at h
    exact other h

theorem statements_sound (ih : BlocksSound fuel) {stop : Token → Bool}
    (hs : s.At e depth lines)
    (h : statements (fuel + 1) stop inMethod s = .done (nodes, u)) :
    ReadsLines e depth depth inMethod lines s u (.statements nodes) ∧
    stop u.cursor.token = true := by
  rw [statements, peek_bind] at h
  split at h
  · next hstop =>
    cases h
    exact ⟨⟨[], lines, rfl, hs, .noStatements⟩, hstop⟩
  · simp only [Run.bind_eq_done_iff, Run.pure_eq_done_iff] at h
    obtain ⟨first, s₁, hfirst, rest, s₂, hrest, heq⟩ := h
    cases heq
    -- the others are read from the lines that the first has left
    obtain ⟨used, lines', rfl, hs₁, hblock⟩ := ih.statement hs hfirst
    obtain ⟨⟨used', lines'', rfl, hu, hblock'⟩, hstop⟩ := ih.statements hs₁ hrest
    refine ⟨⟨used ++ used', lines'', (List.append_assoc ..).symm, hu, ?_⟩, hstop⟩
    rw [List.map_append]
    exact .statements hblock hblock'

theorem suite_sound (ih : BlocksSound fuel) (hs : s.cursor.Closed)
    (h : suite (fuel + 1) inMethod s = .done (node, u)) :
    ∃ t, s.Takes [Token.newline] t ∧ ∀ {e depth lines}, t.At e depth lines →
      ∃ nodes, node = .block nodes ∧ nodes ≠ [] ∧
        ReadsLines e depth (depth + 1) inMethod lines t u (.statements nodes) := by
  simp only [suite, Run.bind_eq_done_iff, Run.pure_eq_done_iff] at h
  obtain ⟨_, s₁, hopen, nodes, s₂, hnodes, _, s₃, hclose, heq⟩ := h
  cases heq
  obtain ⟨t, hnewline, hindent⟩ := openBlock_sound hs hopen
  refine ⟨t, hnewline, ?_⟩
  intro e depth lines ht
  obtain ⟨hs₁, line, lines', rfl, hdepth⟩ := ht.indent hindent
  obtain ⟨⟨used, rest, hlines, hs₂, hblock⟩, hends⟩ := ih.statements hs₁ hnodes
  obtain ⟨hu, hclasses⟩ := hs₂.closeBlock hends hclose
  refine ⟨nodes, rfl, ?_, used, rest, hlines, hu, ?_⟩
  · -- the line that opened the block is still there if no statement was read
    rintro rfl
    cases used with
    | nil =>
      obtain rfl : line :: lines' = rest := hlines
      have hshallow := hs₂.endsBlock_iff.mp hends line rfl
      omega
    | cons first used => cases rows_of_statements_nil hblock
  · rw [hclasses, ← hindent.classes_eq]
    exact hblock

theorem conditional_sound (ih : BlocksSound fuel) (hs : s.At e depth lines)
    (htoken : s.cursor.token = .keyword .ifKw)
    (h : conditional (fuel + 1) inMethod s = .done (node, u)) :
    ReadsLines e depth depth inMethod lines s u (.statement node) := by
  simp only [conditional, atToken_bind, Run.bind_eq_done_iff] at h
  obtain ⟨_, s₁, hadvance, condition, s₂, hcondition, _, s₃, hcolon, yes, s₄,
    hyes, h⟩ := h
  -- the header is one line, and the suite reads deeper ones from behind it
  obtain ⟨ts, h₃, hspells, hplain⟩ :=
    conditionHeader_sound hs.closed htoken hadvance hcondition hcolon
  obtain ⟨t, hnewline, hsuite⟩ := ih.suite (h₃.closed hs.closed) hyes
  obtain ⟨line, rest, rfl, hrow, ht⟩ :=
    hs.takes_line (h₃.trans hnewline) (List.cons_ne_nil _ _) hplain
  obtain ⟨nodes, rfl, hne, used, rest', rfl, hs₄, hblock⟩ := hsuite ht
  rw [hnewline.classes_eq, h₃.classes_eq] at hblock
  split at h
  · next helse =>
    simp only [Run.bind_eq_done_iff, Run.pure_eq_done_iff] at h
    obtain ⟨_, s₅, hadvance', _, s₆, hcolon', no, s₇, hno, heq⟩ := h
    cases heq
    -- the suite has closed its block, so an `else` that comes now is at the depth of
    -- the header
    obtain ⟨h₆, hplain'⟩ := elseHeader_sound hs₄.closed helse hadvance' hcolon'
    obtain ⟨t', hnewline', hsuite'⟩ := ih.suite (h₆.closed hs₄.closed) hno
    obtain ⟨line', rest'', rfl, hrow', ht'⟩ :=
      hs₄.takes_line (h₆.trans hnewline') (List.cons_ne_nil _ _) hplain'
    obtain ⟨nodes', rfl, hne', used', rest₃, rfl, hu, hblock'⟩ := hsuite' ht'
    rw [hnewline'.classes_eq, h₆.classes_eq] at hblock'
    refine ⟨line :: (used ++ line' :: used'), rest₃, by simp, hu, ?_⟩
    rw [List.map_cons, List.map_append, List.map_cons, hrow, hrow']
    exact .ifElse hspells hblock hne hblock' hne'
  · cases h
    refine ⟨line :: used, rest', rfl, hs₄, ?_⟩
    rw [List.map_cons, hrow]
    exact .ifThen hspells hblock hne

theorem declaration_sound (ih : BlocksSound fuel) (hs : s.At e depth lines)
    (htoken : s.cursor.token = .keyword .classKw)
    (h : declaration (fuel + 1) s = .done (node, u)) :
    ReadsLines e depth depth inMethod lines s u (.statement node) := by
  simp only [declaration, Run.bind_eq_done_iff, Run.pure_eq_done_iff] at h
  obtain ⟨_, s₁, hadvance, name, s₂, hid, found, s₃, hparent, _, s₄, hcolon, _, s₅,
    hopen, methods, s₆, hmethods, _, s₇, hclose, cls, s₈, hdeclare, heq⟩ := h
  cases heq
  obtain ⟨ts, h₄, hparent, hplain⟩ :=
    classHeader_sound hs.closed htoken hadvance hid hparent hcolon
  obtain ⟨t, hnewline, hindent⟩ := openBlock_sound (h₄.closed hs.closed) hopen
  obtain ⟨line, rest, rfl, hrow, ht⟩ :=
    hs.takes_line (h₄.trans hnewline) (List.cons_ne_nil _ _) hplain
  obtain ⟨hs₅, -⟩ := ht.indent hindent
  obtain ⟨⟨used, rest', rfl, hs₆, hblock⟩, hends⟩ := ih.methods inMethod hs₅ hmethods
  obtain ⟨hu, hclasses⟩ := hs₆.closeBlock hends hclose
  rw [hindent.classes_eq, hnewline.classes_eq, h₄.classes_eq] at hblock
  -- the class comes behind those that its methods declare
  cases hdeclare
  refine ⟨line :: used, rest', rfl, ⟨hu.stream, hu.closed⟩, ?_⟩
  rw [List.map_cons, hrow, hclasses]
  exact .declaration hparent hblock

theorem methods_sound (ih : BlocksSound fuel) (inMethod : Bool) {found : List Method}
    (hs : s.At e depth lines) (h : methods (fuel + 1) s = .done (found, u)) :
    ReadsLines e depth depth inMethod lines s u (.methods found) ∧
    endsBlock u.cursor.token = true := by
  simp only [methods, peek_bind, Run.bind_eq_done_iff] at h
  obtain ⟨first, s₁, hfirst, h⟩ := h
  obtain ⟨used, rest, rfl, hs₁, hblock⟩ := ih.method inMethod hs hfirst
  split at h
  · next hends =>
    cases h
    exact ⟨⟨used, rest, rfl, hs₁, .lastMethod hblock⟩, hends⟩
  · simp only [Run.bind_eq_done_iff, Run.pure_eq_done_iff] at h
    obtain ⟨more, s₂, hmore, heq⟩ := h
    cases heq
    obtain ⟨⟨used', rest', rfl, hu, hblock'⟩, hends⟩ := ih.methods inMethod hs₁ hmore
    refine ⟨⟨used ++ used', rest', (List.append_assoc ..).symm, hu, ?_⟩, hends⟩
    rw [List.map_append]
    exact .moreMethods hblock hblock'

theorem method_sound (ih : BlocksSound fuel) (inMethod : Bool) {found : Method}
    (hs : s.At e depth lines) (h : method (fuel + 1) s = .done (found, u)) :
    ReadsLines e depth depth inMethod lines s u (.method found) := by
  simp only [method, Run.bind_eq_done_iff, Run.pure_eq_done_iff] at h
  obtain ⟨⟨name, params⟩, s₁, hheader, body, s₂, hbody, heq⟩ := h
  cases heq
  have h₁ := methodHeader_sound hs.closed hheader
  obtain ⟨t, hnewline, hsuite⟩ := ih.suite (h₁.closed hs.closed) hbody
  obtain ⟨line, rest, rfl, hrow, ht⟩ :=
    hs.takes_line (h₁.trans hnewline) (List.cons_ne_nil _ _)
      (plain_methodHeader name params)
  obtain ⟨nodes, rfl, hne, used, rest', rfl, hu, hblock⟩ := hsuite ht
  rw [hnewline.classes_eq, h₁.classes_eq] at hblock
  refine ⟨line :: used, rest', rfl, hu, ?_⟩
  rw [List.map_cons, hrow]
  exact .method hblock hne

theorem blocksSound (fuel : Nat) : BlocksSound fuel := by
  induction fuel with
  | zero => constructor <;> (intros; contradiction)
  | succ fuel ih =>
    exact {
      statement := statement_sound ih
      statements := statements_sound ih
      suite := suite_sound ih
      conditional := conditional_sound ih
      declaration := declaration_sound ih
      methods := fun inMethod => methods_sound ih inMethod
      method := fun inMethod => method_sound ih inMethod }

end Parser
end Mint
