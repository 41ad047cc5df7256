import Mathlib.Algebra.Group.Int.Defs
import Mint.Eval

/-!
# Arithmetic is exact or fails

Numbers have 64 bits, but a calculation with them never shows it: it yields what the
same calculation yields on the integers, or it fails. `calculation_is_exact_or_fails`
says which of the two it is, and where a calculation fails that has more than one reason
to. The calculations are trees of any size (`Calculation`), and their meaning on the
integers (`Calculation.value?`) knows of no bounds.
-/

namespace Mint

/-! ## Numbers -/

/-- The integer is in the range of numbers. -/
def Representable (value : Int) : Prop := -2 ^ 63 ≤ value ∧ value ≤ 2 ^ 63 - 1

instance (value : Int) : Decidable (Representable value) :=
  inferInstanceAs (Decidable (_ ∧ _))

theorem representable_toInt (value : Int64) : Representable value.toInt :=
  ⟨value.le_toInt, Int.le_sub_one_of_lt value.toInt_lt⟩

/-- A number is found for what a number can be. -/
theorem number?_of_representable {value : Int} (h : Representable value) :
    ∃ n : Int64, number? value = some n ∧ n.toInt = value := by
  refine ⟨Int64.ofInt value, ?_, Int64.toInt_ofInt_of_le h.1 (Int.lt_of_le_sub_one h.2)⟩
  rw [number?, Int64.toInt_minValue, Int64.toInt_maxValue]
  exact if_pos h

theorem number?_of_not_representable {value : Int} (h : ¬ Representable value) :
    number? value = none := by
  rw [number?, Int64.toInt_minValue, Int64.toInt_maxValue]
  exact if_neg h

namespace ArithOp

/-- What the operation is on the integers. Quotients are cut off toward zero, and there
is none by zero. -/
def onIntegers : ArithOp → Int → Int → Option Int
  | add, a, b => some (a + b)
  | sub, a, b => some (a - b)
  | mul, a, b => some (a * b)
  | div, a, b => if b = 0 then none else some (a.tdiv b)

/-- Why the operation is refused if it is, given its right operand. -/
def refusal (op : ArithOp) (b : Int) : ArithFault :=
  if op = div ∧ b = 0 then .divisionByZero else .overflow op

theorem onIntegers_eq {op : ArithOp} {b : Int} (h : ¬ (op = div ∧ b = 0)) (a : Int) :
    op.onIntegers a b = some (op.exact a b) := by
  cases op with
  | div => rw [onIntegers, if_neg fun hb => h ⟨rfl, hb⟩, exact]
  | _ => rfl

/-- An operation on numbers does what it does on the integers, or is refused if that is
not a number. -/
theorem apply_cases (op : ArithOp) (a b : Int64) :
    (∃ n : Int64, op.apply a b = .ok n ∧ op.onIntegers a.toInt b.toInt = some n.toInt) ∨
    (op.apply a b = .error (op.refusal b.toInt) ∧
      ∀ value, op.onIntegers a.toInt b.toInt = some value → ¬ Representable value) := by
  have hzero : b = 0 ↔ b.toInt = 0 := by rw [← Int64.toInt_inj, Int64.toInt_zero]
  simp only [apply, refusal, hzero]
  by_cases hdiv : op = div ∧ b.toInt = 0
  · refine .inr ⟨by rw [if_pos hdiv, if_pos hdiv], fun value hvalue => ?_⟩
    rw [hdiv.1, onIntegers, if_pos hdiv.2] at hvalue
    cases hvalue
  · rw [if_neg hdiv, if_neg hdiv, onIntegers_eq hdiv]
    by_cases hrange : Representable (op.exact a.toInt b.toInt)
    · obtain ⟨n, hn, hvalue⟩ := number?_of_representable hrange
      exact .inl ⟨n, by rw [hn], by rw [hvalue]⟩
    · refine .inr ⟨by rw [number?_of_not_representable hrange], fun value hvalue => ?_⟩
      rwa [← Option.some.inj hvalue]

end ArithOp

/-! ## Calculations -/

/-- A tree of operations on numbers. -/
inductive Calculation where
  | number (value : Int64)
  | combine (op : ArithOp) (left right : Calculation)
deriving DecidableEq

namespace Calculation

/-- The calculation as a program tree. -/
def node : Calculation → Node
  | number value => .lit (.number value)
  | combine op left right => .arith op left.node right.node

/-- The value on the integers, unless there is a division by zero. -/
def value? : Calculation → Option Int
  | number value => some value.toInt
  | combine op left right =>
    match left.value?, right.value? with
    | some a, some b => op.onIntegers a b
    | _, _ => none

/-- The calculation and all calculations in it, in the order in which they are carried
out. -/
def postorder : Calculation → List Calculation
  | number value => [number value]
  | combine op left right => left.postorder ++ right.postorder ++ [combine op left right]

/-- The calculation has a value, and that is in the range of numbers. -/
def InRange (c : Calculation) : Prop := ∃ value ∈ c.value?, Representable value

instance (c : Calculation) : Decidable c.InRange :=
  inferInstanceAs (Decidable (∃ _ ∈ _, _))

/-- The first of the calculations that has no value in range. -/
structure FirstOffender (calculations : List Calculation) (c : Calculation) : Prop where
  first : ∃ before after,
    calculations = before ++ c :: after ∧ ∀ other ∈ before, other.InRange
  offends : ¬ c.InRange

variable {c : Calculation} {calculations more : List Calculation}

theorem FirstOffender.append (h : FirstOffender calculations c) :
    FirstOffender (calculations ++ more) c := by
  obtain ⟨before, after, rfl, hbefore⟩ := h.first
  exact ⟨⟨before, after ++ more, List.append_assoc _ _ _, hbefore⟩, h.offends⟩

theorem FirstOffender.after (h : FirstOffender more c)
    (hbefore : ∀ other ∈ calculations, other.InRange) :
    FirstOffender (calculations ++ more) c := by
  obtain ⟨before, after, rfl, hmore⟩ := h.first
  refine ⟨⟨calculations ++ before, after, (List.append_assoc _ _ _).symm, ?_⟩, h.offends⟩
  exact List.forall_mem_append.mpr ⟨hbefore, hmore⟩

/-- The offender is one of the calculations. -/
theorem FirstOffender.mem (h : FirstOffender calculations c) : c ∈ calculations := by
  obtain ⟨before, after, rfl, -⟩ := h.first
  exact List.mem_append_right _ List.mem_cons_self

variable (classes : ClassTable) (d : Dispatch) (frame : Frame)

/-- The run yields the value of the calculation, nothing in which is out of range. -/
def Succeeds (c : Calculation) : Prop :=
  (∀ part ∈ c.postorder, part.InRange) ∧
    ∃ n : Int64,
      c.value? = some n.toInt ∧ c.node.exec classes d frame = .done (.number n, frame)

/-- The run fails for the first part that offends. -/
def Fails (c : Calculation) : Prop :=
  ∃ op left right b,
    FirstOffender c.postorder (combine op left right) ∧ right.value? = some b ∧
    c.node.exec classes d frame = .failed (.error (.arith (op.refusal b)), frame)

/-- One step: the operands are there, and the operation is carried out or refused. -/
theorem succeeds_or_fails_combine {op : ArithOp} {left right : Calculation}
    (hleft : left.Succeeds classes d frame) (hright : right.Succeeds classes d frame) :
    (combine op left right).Succeeds classes d frame ∨
    (combine op left right).Fails classes d frame := by
  obtain ⟨hleftParts, a, ha, hleftExec⟩ := hleft
  obtain ⟨hrightParts, b, hb, hrightExec⟩ := hright
  have hoperands : ∀ part ∈ left.postorder ++ right.postorder, part.InRange :=
    List.forall_mem_append.mpr ⟨hleftParts, hrightParts⟩
  have hvalue : (combine op left right).value? = op.onIntegers a.toInt b.toInt := by
    simp only [value?, ha, hb]
  have hexec : (combine op left right).node.exec classes d frame =
      Exec.ofAction (d.arith classes op (.number a) (.number b)) frame := by
    rw [node, Node.exec, Run.bind_done hleftExec, Run.bind_done hrightExec]
  rcases op.apply_cases a b with ⟨n, happly, hn⟩ | ⟨happly, hn⟩
  · refine .inl ⟨List.forall_mem_append.mpr ⟨hoperands, List.forall_mem_singleton.mpr ?_⟩,
      n, hvalue.trans hn, ?_⟩
    · exact ⟨n.toInt, hvalue.trans hn, representable_toInt n⟩
    · rw [hexec, Dispatch.arith, happly]
      rfl
  · refine .inr ⟨op, left, right, b.toInt, ⟨⟨_, [], rfl, hoperands⟩, ?_⟩, hb, ?_⟩
    · rintro ⟨value, hmem, hrange⟩
      exact hn value (hvalue ▸ hmem) hrange
    · rw [hexec, Dispatch.arith, happly]
      rfl

/-- Every calculation succeeds or fails. The operands come first, the left one before
the right one. -/
theorem succeeds_or_fails (c : Calculation) :
    c.Succeeds classes d frame ∨ c.Fails classes d frame := by
  induction c with
  | number value =>
    refine .inl ⟨List.forall_mem_singleton.mpr ⟨value.toInt, rfl,
      representable_toInt value⟩, value, rfl, ?_⟩
    rw [node, Node.exec]
    rfl
  | combine op left right ihleft ihright =>
    rcases ihleft with hleft | ⟨_, _, _, b, hfirst, hb, hexec⟩
    · rcases ihright with hright | ⟨_, _, _, b, hfirst, hb, hexec⟩
      · exact succeeds_or_fails_combine classes d frame hleft hright
      · obtain ⟨hleftParts, a, ha, hleftExec⟩ := hleft
        refine .inr ⟨_, _, _, b, (hfirst.after hleftParts).append, hb, ?_⟩
        rw [node, Node.exec, Run.bind_done hleftExec, Run.bind_failed hexec]
    · refine .inr ⟨_, _, _, b, hfirst.append.append, hb, ?_⟩
      rw [node, Node.exec, Run.bind_failed hexec]

end Calculation

open Calculation

/-- A calculation yields the number `n` if and only if its value on the integers is `n`
and every part of it has a value in the range of numbers, and then nothing else changes.
Otherwise it fails and nothing changes at all. The error is that of the first part
without a value in range, in the order in which parts are carried out: a division by
zero if its right operand is zero, and else an overflow in its operation. -/
theorem calculation_is_exact_or_fails (classes : ClassTable) (d : Dispatch)
    (frame : Frame) (c : Calculation) :
    (∀ (n : Int64) after, c.node.exec classes d frame = .done (.number n, after) ↔
      (∀ part ∈ c.postorder, part.InRange) ∧ c.value? = some n.toInt ∧ after = frame) ∧
    ((∃ part ∈ c.postorder, ¬ part.InRange) → ∃ op left right b,
      FirstOffender c.postorder (combine op left right) ∧ right.value? = some b ∧
      c.node.exec classes d frame = .failed (.error (.arith (op.refusal b)), frame)) := by
  rcases succeeds_or_fails classes d frame c with ⟨hparts, m, hm, hexec⟩ | hfails
  · refine ⟨fun n after => ?_, ?_⟩
    · rw [hexec]
      constructor
      · intro h
        cases h
        exact ⟨hparts, hm, rfl⟩
      · rintro ⟨-, hn, rfl⟩
        rw [hm] at hn
        rw [Int64.toInt_inj.mp (Option.some.inj hn)]
    · rintro ⟨part, hpart, hoffends⟩
      exact absurd (hparts part hpart) hoffends
  · refine ⟨fun n after => ?_, fun _ => hfails⟩
    obtain ⟨op, left, right, b, hfirst, -, hexec⟩ := hfails
    rw [hexec]
    constructor
    · intro h
      cases h
    · rintro ⟨hparts, -⟩
      exact absurd (hparts _ hfirst.mem) hfirst.offends

/-- The quotient of the least number by -1 is out of range, and the sum around it
divides by zero besides. -/
def leastQuotient : Calculation :=
  combine .add (combine .div (number Int64.minValue) (number (-1)))
    (combine .div (number 1) (number 0))

/-- Three times the quotient of -7 by 2. -/
def cutQuotient : Calculation :=
  combine .mul (combine .div (number (-7)) (number 2)) (number 3)

/-- A frame without variables. -/
def bareFrame : Frame := ⟨∅, .start .unlimited⟩

theorem calculation_is_exact_or_fails_quotients :
    (∀ part ∈ cutQuotient.postorder, part.InRange) ∧
    cutQuotient.node.exec ∅ (.within ∅ 0) bareFrame = .done (.number (-9), bareFrame) ∧
    (∃ part ∈ leastQuotient.postorder, ¬ part.InRange) ∧
    (∃ op left right b, FirstOffender leastQuotient.postorder (combine op left right) ∧
      right.value? = some b ∧
      leastQuotient.node.exec ∅ (.within ∅ 0) bareFrame =
        .failed (.error (.arith (op.refusal b)), bareFrame)) ∧
    leastQuotient.node.exec ∅ (.within ∅ 0) bareFrame =
      .failed (.error (.arith (.overflow .div)), bareFrame) := by
  have hparts : ∀ part ∈ cutQuotient.postorder, part.InRange := by decide
  have hoffends : ∃ part ∈ leastQuotient.postorder, ¬ part.InRange := by decide
  refine ⟨hparts, ?_, hoffends, ?_, by decide⟩
  · exact ((calculation_is_exact_or_fails _ _ _ cutQuotient).1 (-9) bareFrame).mpr
      ⟨hparts, by decide, rfl⟩
  · exact (calculation_is_exact_or_fails _ _ _ leastQuotient).2 hoffends

end Mint
