import Mint.Proofs.Grammar
import Mint.Proofs.Parser.Moves

/-!
# What expressions are read from

A production for expressions that succeeds has taken tokens that spell what it yields.
The argument is one step for each production, from less fuel to more (`Sound`).
-/

namespace Mint.Parser

open Grammar

/-- What an atom can be: an atom of the grammar, or a name that no call follows. -/
inductive AtomRead (classes : ClassTable) (u : ParserState) :
    List Token → Node → Prop where
  | atom {ts node} (h : Spells classes ts (.atom node)) : AtomRead classes u ts node
  | name {first more} (hdot : u.cursor.token.isChar '.' = false) :
    AtomRead classes u (.id first :: dots more) (.path (first :: more))

/-- What the productions for expressions yield with the given fuel is spelled by the
tokens they took. -/
structure Sound (fuel : Nat) : Prop where
  expression : ∀ {level node s u},
    s.cursor.Closed → expression fuel level s = .done (node, u) →
    ∃ ts, s.Takes ts u ∧ Spells s.classes ts (.expression level node)
  chain : ∀ {level left node s u},
    s.cursor.Closed → chain fuel level left s = .done (node, u) →
    ∃ ts, s.Takes ts u ∧ Spells s.classes ts (.chain level left node)
  calls : ∀ {object node s u}, s.cursor.Closed → calls fuel object s = .done (node, u) →
    ∃ ts, s.Takes ts u ∧ Spells s.classes ts (.calls object node)
  atom : ∀ {node s u}, s.cursor.Closed → atom fuel s = .done (node, u) →
    ∃ ts, s.Takes ts u ∧ AtomRead s.classes u ts node
  name : ∀ {node s u}, s.cursor.Closed → name fuel s = .done (node, u) →
    ∃ ts, s.Takes ts u ∧ AtomRead s.classes u ts node
  arguments : ∀ {args s u}, s.cursor.Closed → arguments fuel s = .done (args, u) →
    ∃ ts, s.Takes ts u ∧ Spells s.classes ts (.arguments args)
  expressions : ∀ {nodes s u}, s.cursor.Closed → expressions fuel s = .done (nodes, u) →
    ∃ ts, s.Takes ts u ∧ Spells s.classes ts (.expressions nodes)

variable {fuel : Nat} {s u : ParserState}

theorem segments_sound {more : List String} (hs : s.cursor.Closed)
    (h : segments fuel s = .done (more, u)) :
    s.Takes (dots more) u ∧ u.cursor.token.isChar '.' = false := by
  induction fuel generalizing s more with
  | zero => cases h
  | succ fuel ih =>
    rw [segments, atChar_bind] at h
    split at h
    · next hdot =>
      simp only [Run.bind_eq_done_iff, Run.pure_eq_done_iff] at h
      obtain ⟨_, s₁, hadvance, segment, s₂, hid, rest, s₃, hrest, heq⟩ := h
      cases heq
      have h₁ := takes_of_advance hs (isChar_iff.mp hdot) (by simp) hadvance
      have h₂ := takes_of_takeId (h₁.closed hs) hid
      obtain ⟨h₃, hstop⟩ := ih (h₂.closed (h₁.closed hs)) hrest
      exact ⟨h₁.trans (h₂.trans h₃), hstop⟩
    · next hdot =>
      cases h
      exact ⟨.nil, by simpa using hdot⟩

theorem expression_sound (ih : Sound fuel) {level : Level} {node : Node}
    (hs : s.cursor.Closed) (h : expression (fuel + 1) level s = .done (node, u)) :
    ∃ ts, s.Takes ts u ∧ Spells s.classes ts (.expression level node) := by
  -- the levels whose operators group to the left share one production
  have grouped : groups level = true →
      (Parser.expression fuel level.operand >>= Parser.chain fuel level) s =
        .done (node, u) →
      ∃ ts, s.Takes ts u ∧ Spells s.classes ts (.expression level node) := by
    intro hlevel h
    obtain ⟨left, s₁, hleft, hchain⟩ := Run.bind_eq_done_iff.mp h
    obtain ⟨ts, hts, hspells⟩ := ih.expression hs hleft
    obtain ⟨us, hus, hspells'⟩ := ih.chain (hts.closed hs) hchain
    rw [hts.classes_eq] at hspells'
    exact ⟨ts ++ us, hts.trans hus, .grouped hlevel hspells hspells'⟩
  cases level with
  | disjunction => exact grouped rfl h
  | conjunction => exact grouped rfl h
  | sum => exact grouped rfl h
  | product => exact grouped rfl h
  | negation =>
    rw [Parser.expression, atToken_bind] at h
    split at h
    · next hnot =>
      simp only [Run.bind_eq_done_iff, Run.pure_eq_done_iff] at h
      obtain ⟨_, s₁, hadvance, operand, s₂, hoperand, heq⟩ := h
      cases heq
      have h₁ := takes_of_advance hs (beq_iff_eq.mp hnot) (by simp) hadvance
      obtain ⟨ts, hts, hspells⟩ := ih.expression (h₁.closed hs) hoperand
      rw [h₁.classes_eq] at hspells
      exact ⟨_, h₁.trans hts, .negation hspells⟩
    · obtain ⟨ts, hts, hspells⟩ := ih.expression hs h
      exact ⟨ts, hts, .positive hspells⟩
  | comparison =>
    simp only [Parser.expression, peek_bind, Run.bind_eq_done_iff] at h
    obtain ⟨left, s₁, hleft, h⟩ := h
    obtain ⟨ts, hts, hspells⟩ := ih.expression hs hleft
    cases hop : comparator? s₁.cursor.token with
    | none =>
      rw [hop] at h
      cases h
      exact ⟨ts, hts, .operand hspells⟩
    | some op =>
      rw [hop] at h
      simp only [Run.bind_eq_done_iff, Run.pure_eq_done_iff] at h
      obtain ⟨_, s₂, hadvance, right, s₃, hright, heq⟩ := h
      cases heq
      have h₁ := takes_of_advance (hts.closed hs) rfl
        (by intro heof; rw [heof] at hop; cases hop) hadvance
      obtain ⟨us, hus, hspells'⟩ := ih.expression (h₁.closed (hts.closed hs)) hright
      rw [h₁.classes_eq, hts.classes_eq] at hspells'
      exact ⟨_, hts.trans (h₁.trans hus), .comparison hop hspells hspells'⟩
  | sign =>
    rw [Parser.expression, atChar_bind] at h
    split at h
    · next hminus =>
      simp only [Run.bind_eq_done_iff, Run.pure_eq_done_iff] at h
      obtain ⟨_, s₁, hadvance, operand, s₂, hoperand, heq⟩ := h
      cases heq
      have h₁ := takes_of_advance hs (isChar_iff.mp hminus) (by simp) hadvance
      obtain ⟨ts, hts, hspells⟩ := ih.expression (h₁.closed hs) hoperand
      rw [h₁.classes_eq] at hspells
      exact ⟨_, h₁.trans hts, .negative hspells⟩
    · obtain ⟨object, s₁, hatom, hcalls⟩ := Run.bind_eq_done_iff.mp h
      obtain ⟨ts, hts, hread⟩ := ih.atom hs hatom
      obtain ⟨us, hus, hspells⟩ := ih.calls (hts.closed hs) hcalls
      rw [hts.classes_eq] at hspells
      cases hread with
      | atom hspells' => exact ⟨_, hts.trans hus, .called hspells' hspells⟩
      | name hdot =>
        -- no call follows a bare name, so `calls` took nothing
        cases hspells with
        | callsEnd => exact ⟨_, hts.trans hus, by rw [List.append_nil]; exact .name⟩
        | callsStep =>
          obtain ⟨htoken, -⟩ := hus.head
          rw [htoken] at hdot
          cases hdot

theorem chain_sound (ih : Sound fuel) {level : Level} {left node : Node}
    (hs : s.cursor.Closed) (h : chain (fuel + 1) level left s = .done (node, u)) :
    ∃ ts, s.Takes ts u ∧ Spells s.classes ts (.chain level left node) := by
  rw [Parser.chain, peek_bind] at h
  cases hop : level.join? s.cursor.token with
  | none =>
    rw [hop] at h
    cases h
    exact ⟨[], .nil, .chainEnd⟩
  | some join =>
    rw [hop] at h
    simp only [Run.bind_eq_done_iff] at h
    obtain ⟨_, s₁, hadvance, right, s₂, hright, hchain⟩ := h
    have h₁ := takes_of_advance hs rfl
      (by intro heof; rw [heof] at hop; cases level <;> cases hop) hadvance
    obtain ⟨ts, hts, hspells⟩ := ih.expression (h₁.closed hs) hright
    obtain ⟨us, hus, hspells'⟩ := ih.chain (hts.closed (h₁.closed hs)) hchain
    rw [h₁.classes_eq] at hspells
    rw [hts.classes_eq, h₁.classes_eq] at hspells'
    exact ⟨_ :: (ts ++ us), h₁.trans (hts.trans hus), .chainStep hop hspells hspells'⟩

theorem calls_sound (ih : Sound fuel) {object node : Node} (hs : s.cursor.Closed)
    (h : calls (fuel + 1) object s = .done (node, u)) :
    ∃ ts, s.Takes ts u ∧ Spells s.classes ts (.calls object node) := by
  rw [Parser.calls, atChar_bind] at h
  split at h
  · next hdot =>
    simp only [atChar_bind, Run.bind_eq_done_iff] at h
    obtain ⟨_, s₁, hadvance, method, s₂, hid, h⟩ := h
    have h₁ := takes_of_advance hs (isChar_iff.mp hdot) (by simp) hadvance
    have h₂ := h₁.trans (takes_of_takeId (h₁.closed hs) hid)
    split at h
    · obtain ⟨args, s₃, hargs, hcalls⟩ := Run.bind_eq_done_iff.mp h
      obtain ⟨ts, hts, hspells⟩ := ih.arguments (h₂.closed hs) hargs
      obtain ⟨us, hus, hspells'⟩ := ih.calls (hts.closed (h₂.closed hs)) hcalls
      rw [h₂.classes_eq] at hspells
      rw [hts.classes_eq, h₂.classes_eq] at hspells'
      exact ⟨_ :: _ :: (ts ++ us), h₂.trans (hts.trans hus), .callsStep hspells hspells'⟩
    · cases h
  · cases h
    exact ⟨[], .nil, .callsEnd⟩

theorem atom_sound (ih : Sound fuel) {node : Node} (hs : s.cursor.Closed)
    (h : atom (fuel + 1) s = .done (node, u)) :
    ∃ ts, s.Takes ts u ∧ AtomRead s.classes u ts node := by
  rw [Parser.atom, peek_bind] at h
  cases hconst : constant? s.cursor.token with
  | some node' =>
    rw [hconst] at h
    simp only [Run.bind_eq_done_iff, Run.pure_eq_done_iff] at h
    obtain ⟨_, s₁, hadvance, heq⟩ := h
    cases heq
    have h₁ :=
      takes_of_advance hs rfl (by intro heof; rw [heof] at hconst; cases hconst) hadvance
    exact ⟨_, h₁, .atom (.constant hconst)⟩
  | none =>
    -- a parenthesis and a name are all that is left to begin an atom
    rw [hconst] at h
    by_cases hparen : s.cursor.token = .char '('
    · rw [hparen] at h
      simp only [Run.bind_eq_done_iff, Run.pure_eq_done_iff] at h
      obtain ⟨_, s₁, hadvance, inner, s₂, hinner, _, s₃, hclose, heq⟩ := h
      cases heq
      have h₁ := takes_of_advance hs hparen (by simp) hadvance
      obtain ⟨ts, hts, hspells⟩ := ih.expression (h₁.closed hs) hinner
      have h₃ := takes_of_takeChar (hts.closed (h₁.closed hs)) hclose
      rw [h₁.classes_eq] at hspells
      exact ⟨_, h₁.trans (hts.trans h₃), .atom (.parenthesized hspells)⟩
    · cases htoken : s.cursor.token with
      | id first =>
        rw [htoken] at h
        exact ih.name hs h
      | char c =>
        rw [htoken] at h hparen
        simp at h
        cases h
      | _ =>
        rw [htoken] at h
        cases h

theorem name_sound (ih : Sound fuel) {node : Node} (hs : s.cursor.Closed)
    (h : name (fuel + 1) s = .done (node, u)) :
    ∃ ts, s.Takes ts u ∧ AtomRead s.classes u ts node := by
  simp only [Parser.name, line_bind, atChar_bind, Run.bind_eq_done_iff] at h
  obtain ⟨first, s₁, hid, more, s₂, hsegments, h⟩ := h
  have h₁ := takes_of_takeId hs hid
  obtain ⟨h₂, hdot⟩ := segments_sound (h₁.closed hs) hsegments
  have h₂ := h₁.trans h₂
  split at h
  · -- arguments follow, so the last segment is a method, or the only one is `str` or a
    -- class
    cases hlast : more.getLast? with
    | some method =>
      obtain ⟨init, rfl⟩ := List.getLast?_eq_some_iff.mp hlast
      simp only [hlast, List.dropLast_concat, Run.bind_eq_done_iff,
        Run.pure_eq_done_iff] at h
      obtain ⟨args, s₃, hargs, heq⟩ := h
      cases heq
      obtain ⟨ts, hts, hspells⟩ := ih.arguments (h₂.closed hs) hargs
      rw [h₂.classes_eq] at hspells
      exact ⟨_, h₂.trans hts, .atom (.methodCall hspells)⟩
    | none =>
      obtain rfl : more = [] := List.getLast?_eq_none_iff.mp hlast
      simp only [hlast] at h
      split at h
      · next hstr =>
        subst hstr
        simp only [Run.bind_eq_done_iff, Run.pure_eq_done_iff] at h
        obtain ⟨_, s₃, hopen, operand, s₄, hoperand, _, s₅, hclose, heq⟩ := h
        cases heq
        have h₃ := h₂.trans (takes_of_takeChar (h₂.closed hs) hopen)
        obtain ⟨ts, hts, hspells⟩ := ih.expression (h₃.closed hs) hoperand
        have h₅ := takes_of_takeChar (hts.closed (h₃.closed hs)) hclose
        rw [h₃.classes_eq] at hspells
        exact ⟨_, h₃.trans (hts.trans h₅), .atom (.conversion hspells)⟩
      · next hname =>
        rw [latest?_bind] at h
        cases hcls : s₂.classes.latest? first with
        | some cls =>
          rw [hcls] at h
          simp only [Run.bind_eq_done_iff, Run.pure_eq_done_iff] at h
          obtain ⟨args, s₃, hargs, heq⟩ := h
          cases heq
          obtain ⟨ts, hts, hspells⟩ := ih.arguments (h₂.closed hs) hargs
          rw [h₂.classes_eq] at hspells hcls
          exact ⟨_, h₂.trans hts, .atom (.creation hname hcls hspells)⟩
        | none =>
          rw [hcls] at h
          cases h
  · cases h
    exact ⟨_, h₂, .name hdot⟩

theorem arguments_sound (ih : Sound fuel) {args : List Node} (hs : s.cursor.Closed)
    (h : arguments (fuel + 1) s = .done (args, u)) :
    ∃ ts, s.Takes ts u ∧ Spells s.classes ts (.arguments args) := by
  simp only [Parser.arguments, atChar_bind, Run.bind_eq_done_iff] at h
  obtain ⟨_, s₁, hopen, h⟩ := h
  have h₁ := takes_of_takeChar hs hopen
  split at h
  · simp only [Run.bind_eq_done_iff, Run.pure_eq_done_iff] at h
    obtain ⟨args', s₂, heq, _, s₃, hclose, heq'⟩ := h
    cases heq
    cases heq'
    exact ⟨_, h₁.trans (takes_of_takeChar (h₁.closed hs) hclose), .noArguments⟩
  · simp only [Run.bind_eq_done_iff, Run.pure_eq_done_iff] at h
    obtain ⟨args', s₂, hargs, _, s₃, hclose, heq⟩ := h
    cases heq
    obtain ⟨ts, hts, hspells⟩ := ih.expressions (h₁.closed hs) hargs
    have h₃ := takes_of_takeChar (hts.closed (h₁.closed hs)) hclose
    rw [h₁.classes_eq] at hspells
    exact ⟨_, h₁.trans (hts.trans h₃), .someArguments hspells⟩

theorem expressions_sound (ih : Sound fuel) {nodes : List Node} (hs : s.cursor.Closed)
    (h : expressions (fuel + 1) s = .done (nodes, u)) :
    ∃ ts, s.Takes ts u ∧ Spells s.classes ts (.expressions nodes) := by
  simp only [Parser.expressions, atChar_bind, Run.bind_eq_done_iff] at h
  obtain ⟨first, s₁, hfirst, h⟩ := h
  obtain ⟨ts, hts, hspells⟩ := ih.expression hs hfirst
  split at h
  · next hcomma =>
    simp only [Run.bind_eq_done_iff, Run.pure_eq_done_iff] at h
    obtain ⟨_, s₂, hadvance, rest, s₃, hrest, heq⟩ := h
    cases heq
    have h₁ := takes_of_advance (hts.closed hs) (isChar_iff.mp hcomma) (by simp) hadvance
    obtain ⟨us, hus, hspells'⟩ := ih.expressions (h₁.closed (hts.closed hs)) hrest
    rw [h₁.classes_eq, hts.classes_eq] at hspells'
    exact ⟨_, hts.trans (h₁.trans hus), .moreExpressions hspells hspells'⟩
  · cases h
    exact ⟨ts, hts, .lastExpression hspells⟩

theorem sound (fuel : Nat) : Sound fuel := by
  induction fuel with
  | zero => constructor <;> (intros; contradiction)
  | succ fuel ih =>
    exact {
      expression := expression_sound ih
      chain := chain_sound ih
      calls := calls_sound ih
      atom := atom_sound ih
      name := name_sound ih
      arguments := arguments_sound ih
      expressions := expressions_sound ih }

end Mint.Parser
