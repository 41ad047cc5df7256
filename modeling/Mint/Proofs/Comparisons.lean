import Mathlib.Tactic.SplitIfs
import Mint.Eval
import Mint.Proofs.Line

/-!
# The six comparisons are one order

Of the six comparisons two are made by looking at the values, `==` and `<`, and the
others by asking these. On primitives of one type that makes one total order
(`Value.Ordered`): nothing is run, and each comparison has the answer that
`Comparator.answer` gives. Texts are compared by their characters. Comparing their bytes
comes to the same, because the encoding keeps the order of characters and no character
is encoded by the beginning of what encodes another (`lt_iff_bytes_lt`).

On instances the two may run methods, which may change the heap and print.
`Dispatch.AfterLess` says what the others answer then, in which state they end, and what
they do not run.
-/

namespace Mint

/-! ## Bytes of texts -/

theorem ofNat_lt_ofNat {m n : Nat} (hm : m < 256) (hn : n < 256) :
    UInt8.ofNat m < UInt8.ofNat n ↔ m < n := by
  rw [UInt8.lt_iff_toNat_lt, UInt8.toNat_ofNat', UInt8.toNat_ofNat', Nat.mod_eq_of_lt hm,
    Nat.mod_eq_of_lt hn]

theorem ofNat_eq_ofNat {m n : Nat} (hm : m < 256) (hn : n < 256) :
    UInt8.ofNat m = UInt8.ofNat n ↔ m = n := by
  rw [← UInt8.toNat_inj, UInt8.toNat_ofNat', UInt8.toNat_ofNat', Nat.mod_eq_of_lt hm,
    Nat.mod_eq_of_lt hn]

/-- Numbers are compared by their last place if the places before it agree. -/
theorem places_of_lt {m n : Nat} (h : m < n) :
    m / 64 < n / 64 ∨ m / 64 = n / 64 ∧ m % 64 < n % 64 := by
  omega

theorem toNat_val_lt (c : Char) : c.val.toNat < 0x110000 := by
  have hvalid := c.valid
  rcases hvalid with h | ⟨-, h⟩
  · exact Nat.lt_trans h (by decide)
  · exact h

/-- The encodings of two characters differ before either ends, and the lesser character
has the lesser byte there. -/
theorem encodeChar_append_lt {c d : Char} (h : c < d) (xs ys : List UInt8) :
    String.utf8EncodeChar c ++ xs < String.utf8EncodeChar d ++ ys := by
  have hlt : c.val.toNat < d.val.toNat := h
  have hd := toNat_val_lt d
  unfold String.utf8EncodeChar
  dsimp only
  generalize c.val.toNat = m at hlt ⊢
  generalize d.val.toNat = n at hlt hd ⊢
  -- the bytes behind the first hold the places of the number to the base of 64
  have hm : m / 4096 = m / 64 / 64 ∧ m / 262144 = m / 64 / 64 / 64 := by omega
  have hn : n / 4096 = n / 64 / 64 ∧ n / 262144 = n / 64 / 64 / 64 := by omega
  rw [hm.1, hm.2, hn.1, hn.2]
  have hlast := places_of_lt hlt
  have hsecond : m / 64 < n / 64 → _ := places_of_lt
  have hthird : m / 64 / 64 < n / 64 / 64 → _ := places_of_lt
  clear hm hn
  split_ifs <;>
    simp (disch := omega) only [List.cons_append, List.nil_append, List.cons_lt_cons_iff,
      ofNat_lt_ofNat, ofNat_eq_ofNat] <;>
    omega

theorem encode_lt_of_lt {s t : List Char} (h : s < t) :
    s.flatMap String.utf8EncodeChar < t.flatMap String.utf8EncodeChar := by
  induction s generalizing t with
  | nil =>
    cases t with
    | nil => exact absurd h (Std.lt_irrefl)
    | cons d t =>
      rw [List.flatMap_nil, List.flatMap_cons]
      obtain ⟨b, bs, hbytes⟩ :=
        List.exists_cons_of_ne_nil (String.utf8EncodeChar_ne_nil (c := d))
      rw [hbytes]
      exact List.nil_lt_cons _ _
  | cons c s ih =>
    cases t with
    | nil => exact absurd h (List.not_lt_nil _)
    | cons d t =>
      rw [List.flatMap_cons, List.flatMap_cons]
      rcases List.cons_lt_cons_iff.mp h with hlt | ⟨rfl, hlt⟩
      · exact encodeChar_append_lt hlt _ _
      · exact List.append_left_lt (ih hlt)

/-- Texts are ordered by their characters as they are by their bytes. -/
theorem lt_iff_bytes_lt (s t : String) :
    s.toList < t.toList ↔ s.toUTF8.data.toList < t.toUTF8.data.toList := by
  rw [Source.toList_toUTF8, Source.toList_toUTF8]
  constructor
  · exact encode_lt_of_lt
  · intro hbytes
    rcases Std.lt_trichotomy s.toList t.toList with hlt | heq | hgt
    · exact hlt
    · rw [heq] at hbytes
      exact absurd hbytes Std.lt_irrefl
    · exact absurd (Std.lt_trans hbytes (encode_lt_of_lt hgt)) Std.lt_irrefl

/-! ## Primitives -/

namespace Value

/-- The values are primitives of one type. -/
inductive SameType : Value → Value → Prop where
  | truth (a b : Bool) : SameType (.truth a) (.truth b)
  | number (a b : Int64) : SameType (.number a) (.number b)
  | text (a b : String) : SameType (.text a) (.text b)

theorem SameType.symm {a b : Value} (h : a.SameType b) : b.SameType a := by
  cases h with
  | truth a b => exact .truth b a
  | number a b => exact .number b a
  | text a b => exact .text b a

/-- Whether a primitive comes before another of its type. -/
def isLess : Value → Value → Bool
  | .truth a, .truth b => !a && b
  | .number a, .number b => a < b
  | .text a, .text b => a < b
  | _, _ => false

theorem isLess_irrefl (a : Value) : a.isLess a = false := by
  cases a with
  | truth a => cases a <;> rfl
  | number a => exact decide_eq_false Int64.lt_irrefl
  | text a => exact decide_eq_false (String.lt_irrefl a)
  | none | cls | inst => rfl

theorem isLess_trans {a b c : Value} (hab : a.SameType b) (hbc : b.SameType c)
    (h : a.isLess b = true) (h' : b.isLess c = true) : a.isLess c = true := by
  cases hab with
  | truth a b =>
    cases hbc
    simp_all [isLess]
  | number a b =>
    cases hbc
    exact decide_eq_true (Int64.lt_trans (of_decide_eq_true h) (of_decide_eq_true h'))
  | text a b =>
    cases hbc
    exact decide_eq_true (String.lt_trans (of_decide_eq_true h) (of_decide_eq_true h'))

/-- Of two primitives that differ one comes before the other. -/
theorem isLess_of_ne {a b : Value} (h : a.SameType b) (hne : a ≠ b) :
    a.isLess b = true ∨ b.isLess a = true := by
  cases h with
  | truth a b =>
    cases a <;> cases b
    · exact absurd rfl hne
    · exact .inl rfl
    · exact .inr rfl
    · exact absurd rfl hne
  | number a b =>
    have hne' : a ≠ b := fun heq => hne (heq ▸ rfl)
    exact (Int64.lt_or_lt_of_ne hne').imp decide_eq_true decide_eq_true
  | text a b =>
    rcases Std.lt_trichotomy a b with hlt | rfl | hgt
    · exact .inl (decide_eq_true hlt)
    · exact absurd rfl hne
    · exact .inr (decide_eq_true hgt)

theorem isLess_asymm {a b : Value} (h : a.SameType b) (hless : a.isLess b = true) :
    b.isLess a = false := by
  refine Bool.eq_false_iff.mpr fun hless' => ?_
  have hself := isLess_trans h h.symm hless hless'
  rw [isLess_irrefl] at hself
  cases hself

/-- Two primitives of one type are equal, or the first comes before the second, or the
second before the first. -/
theorem isLess_cases {a b : Value} (h : a.SameType b) :
    (a.isLess b = true ∧ (a == b) = false ∧ b.isLess a = false) ∨
      (a.isLess b = false ∧ (a == b) = true ∧ b.isLess a = false) ∨
      (a.isLess b = false ∧ (a == b) = false ∧ b.isLess a = true) := by
  by_cases heq : a = b
  · subst heq
    exact .inr (.inl ⟨isLess_irrefl a, beq_self_eq_true a, isLess_irrefl a⟩)
  · have hne : (a == b) = false := beq_false_of_ne heq
    rcases isLess_of_ne h heq with hless | hless
    · exact .inl ⟨hless, hne, isLess_asymm h hless⟩
    · exact .inr (.inr ⟨isLess_asymm h.symm hless, hne, hless⟩)

theorem isLess_reverse {a b : Value} (h : a.SameType b) :
    b.isLess a = (!a.isLess b && !(a == b)) := by
  rcases isLess_cases h with
    ⟨hab, heq, hba⟩ | ⟨hab, heq, hba⟩ | ⟨hab, heq, hba⟩ <;> rw [hab, heq, hba] <;> rfl

theorem not_isLess {a b : Value} (h : a.SameType b) :
    (!a.isLess b) = (b.isLess a || a == b) := by
  rcases isLess_cases h with
    ⟨hab, heq, hba⟩ | ⟨hab, heq, hba⟩ | ⟨hab, heq, hba⟩ <;> rw [hab, heq, hba] <;> rfl

end Value

/-- What a comparison of two primitives of one type answers. -/
def Comparator.answer (op : Comparator) (a b : Value) : Bool :=
  match op with
  | .equal => a == b
  | .notEqual => a != b
  | .less => a.isLess b
  | .greater => b.isLess a
  | .lessOrEqual => a.isLess b || a == b
  | .greaterOrEqual => b.isLess a || a == b

/-- Answers of the six comparisons that make one total order of three values. -/
structure Value.Ordered (answer : Comparator → Value → Value → Bool) (a b c : Value) :
    Prop where
  exactlyOne : [answer .less a b, answer .equal a b, answer .greater a b].count true = 1
  trans : answer .less a b = true → answer .less b c = true → answer .less a c = true
  lessOrEqual : answer .lessOrEqual a b = (answer .less a b || answer .equal a b)
  greaterOrEqual : answer .greaterOrEqual a b = answer .lessOrEqual b a
  greater : answer .greater a b = answer .less b a
  notEqual : answer .notEqual a b = !answer .equal a b
  /-- Equal values are the same value. -/
  equal : answer .equal a b = true ↔ a = b

namespace Dispatch

variable {classes : ClassTable} {d : Dispatch}

/-! ## Comparisons that ask others -/

/-- What follows for two values on the machine `m` where `<` answers and leaves the
machine `m'`. -/
structure AfterLess (classes : ClassTable) (d : Dispatch) (a b : Value) (m : Machine)
    (answer : Bool) (m' : Machine) :
    Prop where
  greaterOrEqual : d.compare classes .greaterOrEqual a b m = .done (!answer, m')
  less : answer = true →
    d.compare classes .greater a b m = .done (false, m') ∧
    d.compare classes .lessOrEqual a b m = .done (true, m')
  /-- Equality is asked for where the order has left off. -/
  notLess : answer = false →
    ∀ same m'', d.compare classes .equal a b m' = .done (same, m'') →
    d.compare classes .greater a b m = .done (!same, m'') ∧
    d.compare classes .lessOrEqual a b m = .done (same, m'')

theorem afterLess {a b : Value} {m m' : Machine} {answer : Bool}
    (h : d.compare classes .less a b m = .done (answer, m')) :
    d.AfterLess classes a b m answer m' := by
  have hless : d.less classes a b m = .done (answer, m') := h
  refine ⟨Run.bind_done hless, ?_, ?_⟩
  · rintro rfl
    exact ⟨Run.bind_done hless, Run.bind_done hless⟩
  · rintro rfl same m'' hsame
    have hequal : d.equal classes a b m' = .done (same, m'') := hsame
    exact ⟨(Run.bind_done hless).trans (Run.bind_done hequal),
      (Run.bind_done hless).trans hequal⟩

/-- The order of two values runs no method but `__lt__`. -/
theorem less_congr {other : Dispatch}
    (h : ∀ v args, other.call v Special.lt args = d.call v Special.lt args)
    (a b : Value) : other.less classes a b = d.less classes a b := by
  unfold less
  split
  · rfl
  · rfl
  · rfl
  · simp only [predicate, h]
  · rfl

/-! ## Comparisons of primitives -/

variable {a b : Value}

theorem less_of_sameType (h : a.SameType b) (m : Machine) :
    d.compare classes .less a b m = .done (a.isLess b, m) := by
  cases h <;> rfl

theorem equal_of_sameType (h : a.SameType b) (m : Machine) :
    d.compare classes .equal a b m = .done (a == b, m) := by
  cases h with
  | truth a b | number a b | text a b =>
    show Outcome.done (a == b, m) = _
    congr 2
    rw [Bool.eq_iff_iff]
    simp

theorem compare_of_sameType (h : a.SameType b) (op : Comparator) (m : Machine) :
    d.compare classes op a b m = .done (op.answer a b, m) := by
  have hless : d.compare classes .less a b m = .done (a.isLess b, m) :=
    less_of_sameType h m
  have hequal : d.compare classes .equal a b m = .done (a == b, m) :=
    equal_of_sameType h m
  have hafter := afterLess hless
  have hboth : d.compare classes .greater a b m = .done (!a.isLess b && !(a == b), m) ∧
      d.compare classes .lessOrEqual a b m = .done (a.isLess b || a == b, m) := by
    cases hanswer : a.isLess b with
    | true => exact hafter.less hanswer
    | false => exact hafter.notLess hanswer _ _ hequal
  cases op with
  | equal => exact hequal
  | notEqual => exact Run.bind_done hequal
  | less => exact hless
  | greater => rw [hboth.1, Comparator.answer, Value.isLess_reverse h]
  | lessOrEqual => exact hboth.2
  | greaterOrEqual => rw [hafter.greaterOrEqual, Comparator.answer, Value.not_isLess h]

end Dispatch

theorem Value.ordered_answer {a b c : Value} (hab : a.SameType b) (hbc : b.SameType c) :
    Ordered Comparator.answer a b c where
  exactlyOne := by
    show [a.isLess b, a == b, b.isLess a].count true = 1
    rcases isLess_cases hab with
      ⟨h, h', h''⟩ | ⟨h, h', h''⟩ | ⟨h, h', h''⟩ <;> rw [h, h', h''] <;> rfl
  trans := isLess_trans hab hbc
  lessOrEqual := rfl
  greaterOrEqual := by
    show (b.isLess a || a == b) = (b.isLess a || b == a)
    rw [Bool.beq_comm (a := a)]
  greater := rfl
  notEqual := rfl
  equal := beq_iff_eq

/-! ## The order -/

/-- The comparisons make one total order of the primitives of a type, without running or
changing anything; texts are in the order of their bytes, which is that of their
characters. On any values, what `>`, `<=` and `>=` answer comes of what `<` and `==`
answer one after the other, and where `<` has decided `==` is not asked: whatever else
`other` runs for `__eq__` makes no difference. -/
theorem comparisons_are_one_order (classes : ClassTable) (d : Dispatch) :
    (∀ a b c : Value, a.SameType b → b.SameType c →
      (∀ op m, d.compare classes op a b m = .done (op.answer a b, m)) ∧
      Value.Ordered Comparator.answer a b c) ∧
    (∀ s t : String, (Comparator.less.answer (.text s) (.text t) = true ↔
      s.toUTF8.data.toList < t.toUTF8.data.toList) ∧
      (s.toUTF8.data.toList < t.toUTF8.data.toList ↔ s.toList < t.toList)) ∧
    (∀ a b m answer m', d.compare classes .less a b m = .done (answer, m') →
      d.AfterLess classes a b m answer m') ∧
    ∀ other : Dispatch,
      (∀ v args, other.call v Special.lt args = d.call v Special.lt args) → ∀ a b m,
      other.compare classes .greaterOrEqual a b m =
        d.compare classes .greaterOrEqual a b m ∧
      ∀ m', d.compare classes .less a b m = .done (true, m') →
        other.compare classes .greater a b m = .done (false, m') ∧
        other.compare classes .lessOrEqual a b m = .done (true, m') := by
  refine ⟨fun a b c hab hbc =>
    ⟨fun op m => Dispatch.compare_of_sameType hab op m, Value.ordered_answer hab hbc⟩, ?_,
    fun a b m answer m' h => Dispatch.afterLess h, ?_⟩
  · intro s t
    refine ⟨?_, (lt_iff_bytes_lt s t).symm⟩
    rw [← lt_iff_bytes_lt]
    exact decide_eq_true_iff
  · intro other hother a b m
    have hless : other.compare classes .less a b = d.compare classes .less a b :=
      Dispatch.less_congr hother a b
    refine ⟨?_, fun m' hanswer => ?_⟩
    · show (other.less classes a b >>= _) m = (d.less classes a b >>= _) m
      rw [Dispatch.less_congr hother a b]
    · rw [← hless] at hanswer
      exact (Dispatch.afterLess hanswer).less rfl

/-- Instances that are compared by a field, and that say so. -/
def weightClasses : ClassTable :=
  ⟨#[⟨"Weight", none, [
    ⟨Special.lt, ["other"], .body (.block [.print [.lit (.text "lt")],
      .ret (.compare .less (.path ["self", "kg"]) (.path ["other", "kg"]))])⟩,
    ⟨Special.eq, ["other"], .body (.block [.print [.lit (.text "eq")],
      .ret (.compare .equal (.path ["self", "kg"]) (.path ["other", "kg"]))])⟩]⟩]⟩

/-- Two of them, and what has been printed. -/
def weights (printed : String) : Machine :=
  ⟨⟨#[⟨0, (∅ : Scope).insert "kg" (.number 5)⟩,
    ⟨0, (∅ : Scope).insert "kg" (.number 8)⟩]⟩,
    { Sink.unlimited with written := printed.toUTF8 }⟩

/-- Calls of `__eq__` do not come back. -/
def withoutEquality (d : Dispatch) : Dispatch :=
  { d with
    call := fun v method args =>
      if method = Special.eq then Run.starve else d.call v method args }

theorem comparisons_are_one_order_weights :
    let d := Dispatch.within weightClasses 1
    Value.Ordered Comparator.answer (.text "Zoë") (.text "zoe") (.text "zoë") ∧
      "Zoë".toUTF8.data.toList < "zoë".toUTF8.data.toList ∧
      d.compare weightClasses .less (.inst 0) (.inst 1) (weights "") =
        .done (true, weights "lt\n") ∧
      (withoutEquality d).compare weightClasses .lessOrEqual (.inst 0) (.inst 1)
        (weights "") = .done (true, weights "lt\n") ∧
      d.compare weightClasses .less (.inst 1) (.inst 0) (weights "") =
        .done (false, weights "lt\n") ∧
      d.compare weightClasses .equal (.inst 1) (.inst 0) (weights "lt\n") =
        .done (false, weights "lt\neq\n") ∧
      d.compare weightClasses .greater (.inst 1) (.inst 0) (weights "") =
        .done (true, weights "lt\neq\n") ∧
      d.compare weightClasses .greaterOrEqual (.inst 1) (.inst 0) (weights "") =
        .done (true, weights "lt\n") := by
  intro d
  obtain ⟨hprimitives, htexts, hafter, hother⟩ :=
    comparisons_are_one_order weightClasses d
  have hless : d.compare weightClasses .less (.inst 0) (.inst 1) (weights "") =
      .done (true, weights "lt\n") := by
    decide +kernel
  have hnot : d.compare weightClasses .less (.inst 1) (.inst 0) (weights "") =
      .done (false, weights "lt\n") := by
    decide +kernel
  have hequal : d.compare weightClasses .equal (.inst 1) (.inst 0) (weights "lt\n") =
      .done (false, weights "lt\neq\n") := by
    decide +kernel
  have hordered :=
    (hprimitives (.text "Zoë") (.text "zoe") (.text "zoë") (.text _ _) (.text _ _)).2
  have hbytes := (htexts "Zoë" "zoë").2.mpr (by decide +kernel)
  have hwithout := ((hother (withoutEquality d) fun v args => rfl) (.inst 0) (.inst 1)
    (weights "")).2 _ hless
  have hgreater := (hafter _ _ _ _ _ hnot).notLess rfl _ _ hequal
  exact ⟨hordered, hbytes, hless, hwithout.2, hnot, hequal, hgreater.1,
    (hafter _ _ _ _ _ hnot).greaterOrEqual⟩

end Mint
