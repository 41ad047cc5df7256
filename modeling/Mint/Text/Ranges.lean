/-!
# Character ranges

A set of characters written as ranges of their numbers, in ascending order. The search
for a character ends at the first range that starts after it, which is right because of
the order: `contains_iff`.
-/

namespace Mint

/-- A range of characters: the numbers of its first and its last. -/
abbrev CharRange := Nat × Nat

namespace CharRange

/-- Whether no range is empty and each starts after the one before it, the first at
`start` or later. -/
def ascendingFrom (start : Nat) : List CharRange → Bool
  | [] => true
  | (first, last) :: rest =>
    start ≤ first && first ≤ last && ascendingFrom (last + 1) rest

/-- Whether a number lies in one of the ranges. -/
def contains (n : Nat) : List CharRange → Bool
  | [] => false
  | (first, last) :: rest => first ≤ n && (n ≤ last || contains n rest)

/-- Ranges in ascending order hold only numbers from their start on. -/
theorem le_of_ascendingFrom {start : Nat} {ranges : List CharRange}
    (h : ascendingFrom start ranges) {range : CharRange} (hr : range ∈ ranges) :
    start ≤ range.1 := by
  induction ranges generalizing start with
  | nil => simp at hr
  | cons head rest ih =>
    simp only [ascendingFrom, Bool.and_eq_true, decide_eq_true_eq] at h
    rcases List.mem_cons.1 hr with rfl | hr
    · exact h.1.1
    · have := ih h.2 hr
      omega

/-- In ranges in ascending order the search finds a number exactly if one of them holds
it. -/
theorem contains_iff {start n : Nat} {ranges : List CharRange}
    (h : ascendingFrom start ranges) :
    contains n ranges ↔ ∃ range ∈ ranges, range.1 ≤ n ∧ n ≤ range.2 := by
  induction ranges generalizing start with
  | nil => simp [contains]
  | cons head rest ih =>
    have hle := @le_of_ascendingFrom _ _ h
    simp only [ascendingFrom, Bool.and_eq_true, decide_eq_true_eq] at h
    simp only [contains, Bool.and_eq_true, Bool.or_eq_true, decide_eq_true_eq,
      List.mem_cons, exists_eq_or_imp, ih h.2]
    constructor
    · rintro ⟨hf, hl | hr⟩
      · exact .inl ⟨hf, hl⟩
      · exact .inr hr
    · rintro (⟨hf, hl⟩ | ⟨range, hr, hf, hl⟩)
      · exact ⟨hf, .inl hl⟩
      · have := le_of_ascendingFrom h.2 hr
        exact ⟨by omega, .inr ⟨range, hr, hf, hl⟩⟩

end CharRange

end Mint
