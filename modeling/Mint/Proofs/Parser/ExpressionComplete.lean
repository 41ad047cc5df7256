import Mint.Proofs.Grammar.Tokens

/-!
# Every expression is read

Tokens that spell a phrase are read by its production, provided that the token behind
them does not continue the phrase and that there is fuel: sixteen for each token and a
few more for the levels that are passed before the first one. A phrase of the grammar is
therefore read in one way only.
-/

namespace Mint.Parser

open Grammar

variable {fuel : Nat} {s u : ParserState}

/-- The fuel that a phrase takes besides what its tokens pay for. -/
def cost : Phrase → Nat
  | .expression level _ => 3 + height level
  | .atom _ => 2
  | .expressions _ => 10
  | .chain _ _ _ | .calls _ _ | .arguments _ => 1

/-- The production of a phrase leads from one state to the other, unless the token there
continues the phrase. -/
def Reads (fuel : Nat) (s u : ParserState) : Phrase → Prop
  | .expression level node =>
    Stops level u.cursor.token → expression fuel level s = .done (node, u)
  | .chain level left node =>
    Stops level u.cursor.token → chain fuel level left s = .done (node, u)
  | .calls object node =>
    Stops .sign u.cursor.token → calls fuel object s = .done (node, u)
  | .atom node => atom fuel s = .done (node, u)
  | .arguments args => arguments fuel s = .done (args, u)
  | .expressions nodes =>
    continues? u.cursor.token = none → u.cursor.token.isChar ',' = false →
      expressions fuel s = .done (nodes, u)

theorem segments_complete {more : List String} (hfuel : more.length < fuel)
    (h : s.Takes (dots more) u) (hdot : u.cursor.token.isChar '.' = false) :
    segments fuel s = .done (more, u) := by
  induction more generalizing fuel s with
  | nil =>
    obtain ⟨fuel, rfl⟩ := Nat.exists_eq_add_one_of_ne_zero (Nat.ne_of_gt hfuel)
    obtain rfl := h.eq_of_nil
    rw [segments, atChar_bind, hdot]
    rfl
  | cons segment more ih =>
    obtain ⟨fuel, rfl⟩ := Nat.exists_eq_add_one_of_ne_zero (Nat.ne_zero_of_lt hfuel)
    obtain ⟨s₁, hadvance, h₁, -⟩ := advance_of_takes h
    obtain ⟨s₂, hid, h₂, -⟩ := takeId_of_takes h₁
    rw [segments, atChar_bind, h.head.1]
    simp only [Token.isChar, BEq.rfl, if_true]
    rw [Run.bind_done hadvance, Run.bind_done hid,
      Run.bind_done (ih (by simpa using hfuel) h₂)]
    rfl

/-- The token behind an operand is an operator of the level or the one behind the whole
chain. -/
theorem stops_of_chain {classes : ClassTable} {ts : List Token} {level : Level}
    {left node : Node} (hlevel : groups level = true)
    (h : Spells classes ts (.chain level left node)) (hts : s.Takes ts u)
    (hstops : Stops level u.cursor.token) : Stops level.operand s.cursor.token := by
  cases h with
  | chainEnd =>
    obtain rfl := hts.eq_of_nil
    exact hstops.mono (height_operand level)
  | chainStep hop _ _ =>
    rw [hts.head.1]
    intro l hl
    rw [continues?_of_join? hop] at hl
    cases hl
    exact height_operand_of_groups hlevel

/-! ## How the productions run -/

theorem expression_of_groups {level : Level} (h : groups level = true) :
    expression (fuel + 1) level s =
      (expression fuel level.operand >>= chain fuel level) s := by
  cases level <;> first | rfl | cases h

theorem chain_of_join {level : Level} {join : Node → Node → Node} {left right node : Node}
    {s₁ s₂ : ParserState} (hop : level.join? s.cursor.token = some join)
    (hadvance : advance s = .done ((), s₁))
    (hright : expression fuel level.operand s₁ = .done (right, s₂))
    (hchain : chain fuel level (join left right) s₂ = .done (node, u)) :
    chain (fuel + 1) level left s = .done (node, u) := by
  rw [chain, peek_bind, hop]
  simp only
  rw [Run.bind_done hadvance, Run.bind_done hright, hchain]

theorem negation_of_not {node : Node} {s₁ : ParserState}
    (htoken : s.cursor.token = .keyword .notKw) (hadvance : advance s = .done ((), s₁))
    (h : expression fuel .negation s₁ = .done (node, u)) :
    expression (fuel + 1) .negation s = .done (.not node, u) := by
  rw [expression, atToken_bind, htoken]
  simp only [BEq.rfl, if_true]
  rw [Run.bind_done hadvance, Run.bind_done h]
  rfl

theorem negation_of_starts {token : Token} (hs : s.cursor.token = token)
    (htoken : starts .comparison token = true) :
    expression (fuel + 1) .negation s = expression fuel .comparison s := by
  have hne : (s.cursor.token == Token.keyword .notKw) = false := by
    rw [hs, beq_eq_false_iff_ne]
    rintro rfl
    cases htoken
  rw [expression, atToken_bind, hne]
  rfl

theorem comparison_of_none {left : Node}
    (hleft : expression fuel .sum s = .done (left, u))
    (hop : comparator? u.cursor.token = none) :
    expression (fuel + 1) .comparison s = .done (left, u) := by
  rw [expression, Run.bind_done hleft, peek_bind, hop]
  rfl

theorem comparison_of_some {left right : Node} {op : Comparator} {s₁ s₂ : ParserState}
    (hleft : expression fuel .sum s = .done (left, s₁))
    (hop : comparator? s₁.cursor.token = some op) (hadvance : advance s₁ = .done ((), s₂))
    (hright : expression fuel .sum s₂ = .done (right, u)) :
    expression (fuel + 1) .comparison s = .done (.compare op left right, u) := by
  rw [expression, Run.bind_done hleft, peek_bind, hop]
  simp only
  rw [Run.bind_done hadvance, Run.bind_done hright]
  rfl

theorem sign_of_minus {node : Node} {s₁ : ParserState}
    (htoken : s.cursor.token = .char '-') (hadvance : advance s = .done ((), s₁))
    (h : expression fuel .sign s₁ = .done (node, u)) :
    expression (fuel + 1) .sign s = .done (negative node, u) := by
  rw [expression, atChar_bind, isChar_iff.mpr htoken]
  simp only [if_true]
  rw [Run.bind_done hadvance, Run.bind_done h]
  rfl

theorem sign_of_startsAtom {object node : Node} {s₁ : ParserState}
    (htoken : startsAtom s.cursor.token = true) (hatom : atom fuel s = .done (object, s₁))
    (hcalls : calls fuel object s₁ = .done (node, u)) :
    expression (fuel + 1) .sign s = .done (node, u) := by
  have hminus : s.cursor.token.isChar '-' = false := by
    rw [Token.isChar, beq_eq_false_iff_ne]
    intro heq
    rw [heq] at htoken
    cases htoken
  rw [expression, atChar_bind, hminus]
  simp only [Bool.false_eq_true, if_false]
  rw [Run.bind_done hatom, hcalls]

theorem calls_of_dot {object node : Node} {method : String} {args : List Node}
    {s₁ s₂ s₃ : ParserState} (htoken : s.cursor.token = .char '.')
    (hadvance : advance s = .done ((), s₁)) (hid : takeId s₁ = .done (method, s₂))
    (hopen : s₂.cursor.token = .char '(') (hargs : arguments fuel s₂ = .done (args, s₃))
    (hcalls : calls fuel (.call object method args) s₃ = .done (node, u)) :
    calls (fuel + 1) object s = .done (node, u) := by
  rw [calls, atChar_bind, isChar_iff.mpr htoken]
  simp only [if_true]
  rw [Run.bind_done hadvance, Run.bind_done hid, atChar_bind, isChar_iff.mpr hopen]
  simp only [if_true]
  rw [Run.bind_done hargs, hcalls]

theorem calls_of_stops {object : Node} (h : s.cursor.token.isChar '.' = false) :
    calls (fuel + 1) object s = .done (object, s) := by
  rw [calls, atChar_bind, h]
  rfl

theorem atom_of_constant {node : Node} {s₁ : ParserState}
    (h : constant? s.cursor.token = some node) (hadvance : advance s = .done ((), s₁)) :
    atom (fuel + 1) s = .done (node, s₁) := by
  rw [atom, peek_bind, h]
  simp only
  rw [Run.bind_done hadvance]
  rfl

theorem atom_of_paren {node : Node} {s₁ s₂ : ParserState}
    (htoken : s.cursor.token = .char '(') (hadvance : advance s = .done ((), s₁))
    (hinner : expression fuel .disjunction s₁ = .done (node, s₂))
    (hclose : takeChar ')' s₂ = .done ((), u)) : atom (fuel + 1) s = .done (node, u) := by
  rw [atom, peek_bind, htoken, show constant? (.char '(') = none from rfl]
  simp only
  rw [Run.bind_done hadvance, Run.bind_done hinner, Run.bind_done hclose]
  rfl

theorem atom_of_id {first : String} (htoken : s.cursor.token = .id first) :
    atom (fuel + 1) s = name fuel s := by
  rw [atom, peek_bind, htoken]
  rfl

/-- A name up to its last segment. -/
theorem name_of_segments {first : String} {more : List String} {s₁ s₂ : ParserState}
    (hid : takeId s = .done (first, s₁)) (hmore : segments fuel s₁ = .done (more, s₂))
    (hopen : s₂.cursor.token.isChar '(' = false) :
    name (fuel + 1) s = .done (.path (first :: more), s₂) := by
  rw [name, line_bind, Run.bind_done hid, Run.bind_done hmore, atChar_bind, hopen]
  rfl

theorem name_of_methodCall {first method : String} {more : List String} {args : List Node}
    {s₁ s₂ : ParserState} (hid : takeId s = .done (first, s₁))
    (hmore : segments fuel s₁ = .done (more ++ [method], s₂))
    (hopen : s₂.cursor.token = .char '(') (hargs : arguments fuel s₂ = .done (args, u)) :
    name (fuel + 1) s = .done (.call (.path (first :: more)) method args, u) := by
  rw [name, line_bind, Run.bind_done hid, Run.bind_done hmore, atChar_bind,
    isChar_iff.mpr hopen]
  simp only [if_true, List.getLast?_concat, List.dropLast_concat]
  rw [Run.bind_done hargs]
  rfl

theorem name_of_conversion {operand : Node} {s₁ s₂ s₃ : ParserState}
    (hid : takeId s = .done (textConversion, s₁))
    (hmore : segments fuel s₁ = .done ([], s₁)) (hopen : s₁.cursor.token = .char '(')
    (htake : takeChar '(' s₁ = .done ((), s₂))
    (hoperand : expression fuel .disjunction s₂ = .done (operand, s₃))
    (hclose : takeChar ')' s₃ = .done ((), u)) :
    name (fuel + 1) s = .done (.str operand, u) := by
  rw [name, line_bind, Run.bind_done hid, Run.bind_done hmore, atChar_bind,
    isChar_iff.mpr hopen]
  simp only [if_true, List.getLast?_nil]
  rw [Run.bind_done htake, Run.bind_done hoperand, Run.bind_done hclose]
  rfl

theorem name_of_creation {first : String} {cls : ClassId} {args : List Node}
    {s₁ : ParserState} (hid : takeId s = .done (first, s₁))
    (hmore : segments fuel s₁ = .done ([], s₁)) (hopen : s₁.cursor.token = .char '(')
    (hname : first ≠ textConversion) (hcls : s₁.classes.latest? first = some cls)
    (hargs : arguments fuel s₁ = .done (args, u)) :
    name (fuel + 1) s = .done (.create cls args, u) := by
  rw [name, line_bind, Run.bind_done hid, Run.bind_done hmore, atChar_bind,
    isChar_iff.mpr hopen]
  simp only [if_true, List.getLast?_nil, hname, if_false]
  rw [latest?_bind, hcls]
  simp only
  rw [Run.bind_done hargs]
  rfl

theorem arguments_of_close {s₁ : ParserState} (hopen : takeChar '(' s = .done ((), s₁))
    (htoken : s₁.cursor.token = .char ')') (hclose : takeChar ')' s₁ = .done ((), u)) :
    arguments (fuel + 1) s = .done ([], u) := by
  rw [arguments, Run.bind_done hopen, atChar_bind, isChar_iff.mpr htoken]
  simp only [if_true, pure_bind]
  rw [Run.bind_done hclose]
  rfl

theorem arguments_of_starts {nodes : List Node} {s₁ s₂ : ParserState}
    (hopen : takeChar '(' s = .done ((), s₁))
    (htoken : starts .disjunction s₁.cursor.token = true)
    (hnodes : expressions fuel s₁ = .done (nodes, s₂))
    (hclose : takeChar ')' s₂ = .done ((), u)) :
    arguments (fuel + 1) s = .done (nodes, u) := by
  have hclosed : s₁.cursor.token.isChar ')' = false := by
    rw [Token.isChar, beq_eq_false_iff_ne]
    intro heq
    rw [heq] at htoken
    cases htoken
  rw [arguments, Run.bind_done hopen, atChar_bind, hclosed]
  simp only [Bool.false_eq_true, if_false]
  rw [Run.bind_done hnodes, Run.bind_done hclose]
  rfl

theorem expressions_of_last {node : Node}
    (h : expression fuel .disjunction s = .done (node, u))
    (hcomma : u.cursor.token.isChar ',' = false) :
    expressions (fuel + 1) s = .done ([node], u) := by
  rw [expressions, Run.bind_done h, atChar_bind, hcomma]
  rfl

theorem expressions_of_comma {node : Node} {nodes : List Node} {s₁ s₂ : ParserState}
    (hfirst : expression fuel .disjunction s = .done (node, s₁))
    (hcomma : s₁.cursor.token = .char ',') (hadvance : advance s₁ = .done ((), s₂))
    (hrest : expressions fuel s₂ = .done (nodes, u)) :
    expressions (fuel + 1) s = .done (node :: nodes, u) := by
  rw [expressions, Run.bind_done hfirst, atChar_bind, isChar_iff.mpr hcomma]
  simp only [if_true]
  rw [Run.bind_done hadvance, Run.bind_done hrest]
  rfl

/-! ## One step for each rule of the grammar -/

/-- Wherever the tokens stand, the production of the phrase reads them. -/
def Complete (classes : ClassTable) (ts : List Token) (phrase : Phrase) : Prop :=
  ∀ (fuel : Nat) ⦃s u : ParserState⦄, s.classes = classes → s.Takes ts u →
    16 * ts.length + cost phrase ≤ fuel → Reads fuel s u phrase

theorem length_le_dots (segments : List String) :
    segments.length ≤ (dots segments).length := by
  induction segments with
  | nil => exact Nat.le_refl 0
  | cons segment segments ih =>
    rw [dots, List.flatMap_cons, List.length_append, ← dots]
    simp only [List.length_cons, List.length_nil]
    omega

theorem groups_of_join? {level : Level} {token : Token} {join : Node → Node → Node}
    (h : level.join? token = some join) : groups level = true := by
  unfold Level.join? at h
  split at h <;> first | rfl | cases h

/-- The first token of arguments is a parenthesis. -/
theorem open_of_arguments {classes : ClassTable} {ts : List Token} {args : List Node}
    (h : Spells classes ts (.arguments args)) (hts : s.Takes ts u) :
    s.cursor.token = .char '(' := by
  obtain ⟨rest, rfl⟩ := h.starts
  exact hts.head.1

namespace Complete

variable {classes : ClassTable} {ts us : List Token} {level : Level}
  {left right object node : Node} {args nodes : List Node}

theorem grouped (hlevel : groups level = true)
    (hchain : Spells classes us (.chain level left node))
    (ihLeft : Complete classes ts (.expression level.operand left))
    (ihChain : Complete classes us (.chain level left node)) :
    Complete classes (ts ++ us) (.expression level node) := by
  intro fuel s u hs hts hfuel hstops
  have hheight := height_operand_of_groups hlevel
  simp only [List.length_append, cost] at hfuel
  obtain ⟨fuel, rfl⟩ : ∃ f, fuel = f + 1 := ⟨fuel - 1, by omega⟩
  obtain ⟨t, hts, hus, ht⟩ := hts.split
  -- the first operand ends where the chain begins, be that at an operator or behind the
  -- whole expression
  have hleft := ihLeft fuel hs hts (by simp only [cost]; omega)
    (stops_of_chain hlevel hchain hus hstops)
  rw [expression_of_groups hlevel, Run.bind_done hleft]
  exact ihChain fuel (by rw [ht, hs]) hus (by simp only [cost]; omega) hstops

theorem chainEnd : Complete classes [] (.chain level node node) := by
  intro fuel s u hs hts hfuel hstops
  simp only [cost] at hfuel
  obtain ⟨fuel, rfl⟩ : ∃ f, fuel = f + 1 := ⟨fuel - 1, by omega⟩
  obtain rfl := hts.eq_of_nil
  rw [chain, peek_bind, hstops.join?_eq_none]
  rfl

theorem chainStep {op : Token} {join : Node → Node → Node}
    (hop : level.join? op = some join)
    (hchain : Spells classes us (.chain level (join left right) node))
    (ihRight : Complete classes ts (.expression level.operand right))
    (ihChain : Complete classes us (.chain level (join left right) node)) :
    Complete classes (op :: (ts ++ us)) (.chain level left node) := by
  intro fuel s u hs hts hfuel hstops
  -- the operator is a token more than its operand has, and pays for the levels in between
  have hheight : height level.operand ≤ 5 := by cases level <;> decide
  simp only [List.length_cons, List.length_append, cost] at hfuel
  obtain ⟨fuel, rfl⟩ : ∃ f, fuel = f + 1 := ⟨fuel - 1, by omega⟩
  obtain ⟨s₁, hadvance, hts₁, hs₁⟩ := advance_of_takes hts
  obtain ⟨s₂, hts₂, hus, hs₂⟩ := hts₁.split
  have hstops' := stops_of_chain (groups_of_join? hop) hchain hus hstops
  exact chain_of_join (by rw [hts.head.1, hop]) hadvance
    (ihRight fuel (by rw [hs₁, hs]) hts₂ (by simp only [cost]; omega) hstops')
    (ihChain fuel (by rw [hs₂, hs₁, hs]) hus (by simp only [cost]; omega) hstops)

theorem negation (ih : Complete classes ts (.expression .negation node)) :
    Complete classes (.keyword .notKw :: ts) (.expression .negation (.not node)) := by
  intro fuel s u hs hts hfuel hstops
  simp only [List.length_cons, cost] at hfuel
  obtain ⟨fuel, rfl⟩ : ∃ f, fuel = f + 1 := ⟨fuel - 1, by omega⟩
  obtain ⟨s₁, hadvance, hts₁, hs₁⟩ := advance_of_takes hts
  exact negation_of_not hts.head.1 hadvance
    (ih fuel (by rw [hs₁, hs]) hts₁ (by simp only [cost]; omega) hstops)

theorem positive (h : Spells classes ts (.expression .comparison node))
    (ih : Complete classes ts (.expression .comparison node)) :
    Complete classes ts (.expression .negation node) := by
  intro fuel s u hs hts hfuel hstops
  simp only [cost, height] at hfuel
  obtain ⟨fuel, rfl⟩ : ∃ f, fuel = f + 1 := ⟨fuel - 1, by omega⟩
  -- a comparison does not begin with `not`
  obtain ⟨token, rest, rfl, htoken⟩ := h.starts
  rw [negation_of_starts hts.head.1 htoken]
  exact ih fuel hs hts (by simp only [cost, height]; omega) (hstops.mono (by decide))

theorem operand (ih : Complete classes ts (.expression .sum node)) :
    Complete classes ts (.expression .comparison node) := by
  intro fuel s u hs hts hfuel hstops
  simp only [cost, height] at hfuel
  obtain ⟨fuel, rfl⟩ : ∃ f, fuel = f + 1 := ⟨fuel - 1, by omega⟩
  have hsum :=
    ih fuel hs hts (by simp only [cost, height]; omega) (hstops.mono (by decide))
  exact comparison_of_none hsum hstops.comparator?_eq_none

theorem comparison {op : Token} {comparator : Comparator}
    (hop : comparator? op = some comparator)
    (ihLeft : Complete classes ts (.expression .sum left))
    (ihRight : Complete classes us (.expression .sum right)) :
    Complete classes (ts ++ op :: us)
      (.expression .comparison (.compare comparator left right)) := by
  intro fuel s u hs hts hfuel hstops
  simp only [List.length_append, List.length_cons, cost, height] at hfuel
  obtain ⟨fuel, rfl⟩ : ∃ f, fuel = f + 1 := ⟨fuel - 1, by omega⟩
  obtain ⟨s₁, hts, hus, hs₁⟩ := hts.split
  obtain ⟨s₂, hadvance, hus₂, hs₂⟩ := advance_of_takes hus
  have hop' : comparator? s₁.cursor.token = some comparator := by rw [hus.head.1, hop]
  have hstops' : Stops .sum s₁.cursor.token := by
    intro l hl
    rw [continues?_of_comparator? hop'] at hl
    cases hl
    decide
  exact comparison_of_some
    (ihLeft fuel hs hts (by simp only [cost, height]; omega) hstops') hop' hadvance
    (ihRight fuel (by rw [hs₂, hs₁, hs]) hus₂ (by simp only [cost, height]; omega)
      (hstops.mono (by decide)))

theorem negative (ih : Complete classes ts (.expression .sign node)) :
    Complete classes (.char '-' :: ts) (.expression .sign (Parser.negative node)) := by
  intro fuel s u hs hts hfuel hstops
  simp only [List.length_cons, cost] at hfuel
  obtain ⟨fuel, rfl⟩ : ∃ f, fuel = f + 1 := ⟨fuel - 1, by omega⟩
  obtain ⟨s₁, hadvance, hts₁, hs₁⟩ := advance_of_takes hts
  exact sign_of_minus hts.head.1 hadvance
    (ih fuel (by rw [hs₁, hs]) hts₁ (by simp only [cost]; omega) hstops)

theorem name {first : String} {more : List String} :
    Complete classes (.id first :: dots more)
      (.expression .sign (.path (first :: more))) := by
  intro fuel s u hs hts hfuel hstops
  have hdots := length_le_dots more
  simp only [List.length_cons, cost, height] at hfuel
  obtain ⟨fuel, rfl⟩ : ∃ f, fuel = f + 3 := ⟨fuel - 3, by omega⟩
  obtain ⟨s₁, hid, hts₁, -⟩ := takeId_of_takes hts
  have hdot : u.cursor.token.isChar '.' = false := hstops.isChar_eq_false rfl
  have hmore : segments fuel s₁ = .done (more, u) :=
    segments_complete (by omega) hts₁ hdot
  have hname := name_of_segments hid hmore (hstops.isChar_eq_false rfl)
  rw [← atom_of_id hts.head.1] at hname
  exact sign_of_startsAtom (by rw [hts.head.1]; rfl) hname (calls_of_stops hdot)

theorem called (hatom : Spells classes ts (.atom object))
    (ihAtom : Complete classes ts (.atom object))
    (ihCalls : Complete classes us (.calls object node)) :
    Complete classes (ts ++ us) (.expression .sign node) := by
  intro fuel s u hs hts hfuel hstops
  simp only [List.length_append, cost, height] at hfuel
  obtain ⟨fuel, rfl⟩ : ∃ f, fuel = f + 1 := ⟨fuel - 1, by omega⟩
  obtain ⟨s₁, hts, hus, hs₁⟩ := hts.split
  obtain ⟨token, rest, rfl, htoken⟩ := hatom.starts
  exact sign_of_startsAtom (by rw [hts.head.1, htoken])
    (ihAtom fuel hs hts (by simp only [cost]; omega))
    (ihCalls fuel (by rw [hs₁, hs]) hus (by simp only [cost]; omega) hstops)

theorem callsEnd : Complete classes [] (.calls node node) := by
  intro fuel s u hs hts hfuel hstops
  simp only [cost] at hfuel
  obtain ⟨fuel, rfl⟩ : ∃ f, fuel = f + 1 := ⟨fuel - 1, by omega⟩
  obtain rfl := hts.eq_of_nil
  exact calls_of_stops (hstops.isChar_eq_false rfl)

theorem callsStep {method : String} (hargs : Spells classes ts (.arguments args))
    (ihArgs : Complete classes ts (.arguments args))
    (ihCalls : Complete classes us (.calls (.call object method args) node)) :
    Complete classes (.char '.' :: .id method :: (ts ++ us)) (.calls object node) := by
  intro fuel s u hs hts hfuel hstops
  simp only [List.length_cons, List.length_append, cost] at hfuel
  obtain ⟨fuel, rfl⟩ : ∃ f, fuel = f + 1 := ⟨fuel - 1, by omega⟩
  obtain ⟨s₁, hadvance, hts₁, hs₁⟩ := advance_of_takes hts
  obtain ⟨s₂, hid, hts₂, hs₂⟩ := takeId_of_takes hts₁
  obtain ⟨s₃, hts₃, hus, hs₃⟩ := hts₂.split
  exact calls_of_dot hts.head.1 hadvance hid (open_of_arguments hargs hts₃)
    (ihArgs fuel (by rw [hs₂, hs₁, hs]) hts₃ (by simp only [cost]; omega))
    (ihCalls fuel (by rw [hs₃, hs₂, hs₁, hs]) hus (by simp only [cost]; omega) hstops)

theorem constant {token : Token} (h : constant? token = some node) :
    Complete classes [token] (.atom node) := by
  intro fuel s u hs hts hfuel
  simp only [cost] at hfuel
  obtain ⟨fuel, rfl⟩ : ∃ f, fuel = f + 1 := ⟨fuel - 1, by omega⟩
  obtain ⟨s₁, hadvance, hts₁, -⟩ := advance_of_takes hts
  obtain rfl := hts₁.eq_of_nil
  exact atom_of_constant (by rw [hts.head.1, h]) hadvance

theorem parenthesized (ih : Complete classes ts (.expression .disjunction node)) :
    Complete classes (.char '(' :: (ts ++ [.char ')'])) (.atom node) := by
  intro fuel s u hs hts hfuel
  simp only [List.length_cons, List.length_append, cost] at hfuel
  obtain ⟨fuel, rfl⟩ : ∃ f, fuel = f + 1 := ⟨fuel - 1, by omega⟩
  obtain ⟨s₁, hadvance, hts₁, hs₁⟩ := advance_of_takes hts
  obtain ⟨s₂, hts₂, hclose, -⟩ := hts₁.split
  obtain ⟨s₃, htake, hend, -⟩ := takeChar_of_takes hclose
  obtain rfl := hend.eq_of_nil
  have hstops : Stops .disjunction s₂.cursor.token :=
    stops_of_none (by rw [hclose.head.1]; rfl)
  have hinner :=
    ih fuel (by rw [hs₁, hs]) hts₂ (by simp only [cost, height]; omega) hstops
  exact atom_of_paren hts.head.1 hadvance hinner htake

theorem methodCall {first method : String} {more : List String}
    (hargs : Spells classes ts (.arguments args))
    (ih : Complete classes ts (.arguments args)) :
    Complete classes (.id first :: (dots (more ++ [method]) ++ ts))
      (.atom (.call (.path (first :: more)) method args)) := by
  intro fuel s u hs hts hfuel
  have hdots := length_le_dots (more ++ [method])
  simp only [List.length_cons, List.length_append, cost] at hfuel
  obtain ⟨fuel, rfl⟩ : ∃ f, fuel = f + 2 := ⟨fuel - 2, by omega⟩
  obtain ⟨s₁, hid, hts₁, hs₁⟩ := takeId_of_takes hts
  obtain ⟨s₂, hmore, hts₂, hs₂⟩ := hts₁.split
  -- the name goes on up to the parenthesis, so that the method is its last segment
  have hopen := open_of_arguments hargs hts₂
  have hsegments : segments fuel s₁ = .done (more ++ [method], s₂) :=
    segments_complete (by omega) hmore (by rw [hopen]; rfl)
  have hargs := ih fuel (by rw [hs₂, hs₁, hs]) hts₂ (by simp only [cost]; omega)
  exact (atom_of_id hts.head.1).trans (name_of_methodCall hid hsegments hopen hargs)

/-- Nothing is a dotted name's rest before a parenthesis. -/
theorem segments_of_open {fuel : Nat} {s : ParserState} (hfuel : 0 < fuel)
    (hopen : s.cursor.token = .char '(') :
    segments fuel s = .done ([], s) :=
  segments_complete hfuel .nil (by rw [hopen]; rfl)

theorem conversion (ih : Complete classes ts (.expression .disjunction node)) :
    Complete classes (.id textConversion :: .char '(' :: (ts ++ [.char ')']))
      (.atom (.str node)) := by
  intro fuel s u hs hts hfuel
  simp only [List.length_cons, List.length_append, cost] at hfuel
  obtain ⟨fuel, rfl⟩ : ∃ f, fuel = f + 2 := ⟨fuel - 2, by omega⟩
  obtain ⟨s₁, hid, hts₁, hs₁⟩ := takeId_of_takes hts
  obtain ⟨s₂, htake, hts₂, hs₂⟩ := takeChar_of_takes hts₁
  obtain ⟨s₃, hts₃, hclose, -⟩ := hts₂.split
  obtain ⟨s₄, htake', hend, -⟩ := takeChar_of_takes hclose
  obtain rfl := hend.eq_of_nil
  have hopen := hts₁.head.1
  have hstops : Stops .disjunction s₃.cursor.token :=
    stops_of_none (by rw [hclose.head.1]; rfl)
  have hoperand :=
    ih fuel (by rw [hs₂, hs₁, hs]) hts₃ (by simp only [cost, height]; omega) hstops
  exact (atom_of_id hts.head.1).trans
    (name_of_conversion hid
      (segments_of_open (by omega) hopen) hopen htake hoperand htake')

theorem creation {name : String} {cls : ClassId} (hname : name ≠ textConversion)
    (hcls : classes.latest? name = some cls) (hargs : Spells classes ts (.arguments args))
    (ih : Complete classes ts (.arguments args)) :
    Complete classes (.id name :: ts) (.atom (.create cls args)) := by
  intro fuel s u hs hts hfuel
  simp only [List.length_cons, cost] at hfuel
  obtain ⟨fuel, rfl⟩ : ∃ f, fuel = f + 2 := ⟨fuel - 2, by omega⟩
  obtain ⟨s₁, hid, hts₁, hs₁⟩ := takeId_of_takes hts
  have hopen := open_of_arguments hargs hts₁
  have hargs := ih fuel (by rw [hs₁, hs]) hts₁ (by simp only [cost]; omega)
  exact (atom_of_id hts.head.1).trans
    (name_of_creation hid (segments_of_open (by omega) hopen) hopen hname
      (by rw [hs₁, hs, hcls]) hargs)

theorem noArguments : Complete classes [.char '(', .char ')'] (.arguments []) := by
  intro fuel s u hs hts hfuel
  simp only [cost] at hfuel
  obtain ⟨fuel, rfl⟩ : ∃ f, fuel = f + 1 := ⟨fuel - 1, by omega⟩
  obtain ⟨s₁, hopen, hts₁, -⟩ := takeChar_of_takes hts
  obtain ⟨s₂, hclose, hend, -⟩ := takeChar_of_takes hts₁
  obtain rfl := hend.eq_of_nil
  exact arguments_of_close hopen hts₁.head.1 hclose

theorem someArguments (h : Spells classes ts (.expressions nodes))
    (ih : Complete classes ts (.expressions nodes)) :
    Complete classes (.char '(' :: (ts ++ [.char ')'])) (.arguments nodes) := by
  intro fuel s u hs hts hfuel
  simp only [List.length_cons, List.length_append, cost] at hfuel
  obtain ⟨fuel, rfl⟩ : ∃ f, fuel = f + 1 := ⟨fuel - 1, by omega⟩
  obtain ⟨s₁, hopen, hts₁, hs₁⟩ := takeChar_of_takes hts
  obtain ⟨s₂, hts₂, hclose, -⟩ := hts₁.split
  obtain ⟨s₃, htake, hend, -⟩ := takeChar_of_takes hclose
  obtain rfl := hend.eq_of_nil
  obtain ⟨token, rest, rfl, htoken⟩ := h.starts
  have hnodes := ih fuel (by rw [hs₁, hs]) hts₂ (by simp only [cost]; omega)
    (by rw [hclose.head.1]; rfl) (by rw [hclose.head.1]; rfl)
  exact arguments_of_starts hopen (by rw [hts₂.head.1, htoken]) hnodes htake

theorem lastExpression (ih : Complete classes ts (.expression .disjunction node)) :
    Complete classes ts (.expressions [node]) := by
  intro fuel s u hs hts hfuel hnone hcomma
  simp only [cost] at hfuel
  obtain ⟨fuel, rfl⟩ : ∃ f, fuel = f + 1 := ⟨fuel - 1, by omega⟩
  exact expressions_of_last
    (ih fuel hs hts (by simp only [cost, height]; omega) (stops_of_none hnone)) hcomma

theorem moreExpressions (ihFirst : Complete classes ts (.expression .disjunction node))
    (ihRest : Complete classes us (.expressions nodes)) :
    Complete classes (ts ++ .char ',' :: us) (.expressions (node :: nodes)) := by
  intro fuel s u hs hts hfuel hnone hcomma
  simp only [List.length_cons, List.length_append, cost] at hfuel
  obtain ⟨fuel, rfl⟩ : ∃ f, fuel = f + 1 := ⟨fuel - 1, by omega⟩
  obtain ⟨s₁, hts, hus, hs₁⟩ := hts.split
  obtain ⟨s₂, hadvance, hus₂, hs₂⟩ := advance_of_takes hus
  have hstops : Stops .disjunction s₁.cursor.token :=
    stops_of_none (by rw [hus.head.1]; rfl)
  exact expressions_of_comma
    (ihFirst fuel hs hts (by simp only [cost, height]; omega) hstops) hus.head.1 hadvance
    (ihRest fuel (by rw [hs₂, hs₁, hs]) hus₂ (by simp only [cost]; omega) hnone hcomma)

end Complete

/-- What the grammar calls a phrase is read by the production of that phrase. -/
theorem complete_of_spells {classes : ClassTable} {ts : List Token} {phrase : Phrase}
    (h : Spells classes ts phrase) : Complete classes ts phrase := by
  induction h with
  | grouped hlevel _ hchain ihLeft ihChain => exact .grouped hlevel hchain ihLeft ihChain
  | chainEnd => exact .chainEnd
  | chainStep hop _ hchain ihRight ihChain => exact .chainStep hop hchain ihRight ihChain
  | negation _ ih => exact .negation ih
  | positive h ih => exact .positive h ih
  | operand _ ih => exact .operand ih
  | comparison hop _ _ ihLeft ihRight => exact .comparison hop ihLeft ihRight
  | negative _ ih => exact .negative ih
  | name => exact .name
  | called hatom _ ihAtom ihCalls => exact .called hatom ihAtom ihCalls
  | callsEnd => exact .callsEnd
  | callsStep hargs _ ihArgs ihCalls => exact .callsStep hargs ihArgs ihCalls
  | constant h => exact .constant h
  | parenthesized _ ih => exact .parenthesized ih
  | methodCall hargs ih => exact .methodCall hargs ih
  | conversion _ ih => exact .conversion ih
  | creation hname hcls hargs ih => exact .creation hname hcls hargs ih
  | noArguments => exact .noArguments
  | someArguments h ih => exact .someArguments h ih
  | lastExpression _ ih => exact .lastExpression ih
  | moreExpressions _ _ ihFirst ihRest => exact .moreExpressions ihFirst ihRest

end Mint.Parser
