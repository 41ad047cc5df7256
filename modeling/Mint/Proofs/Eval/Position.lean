import Mint.Proofs.Eval.Course

/-!
# Positions in a run

What goes on inside an activity has a position in it: which part to go into, and so on
at each depth. Two things at different positions are one inside the other, or one is
over before the other starts (`Activity.cases_of_positions`).

All along the heap grows. A creation takes the first address that is free and goes on
from there, so neither what goes on inside it nor what comes after it is given this
address again (`Activity.Makes.ne`).
-/

namespace Mint

/-! ## Growth along a course -/

section

variable {classes : ClassTable} {missed : EvalError → Prop} {heap : Heap}
  {now : List Activity} {e : Ending} {m : Machine} {A B : Activity}

theorem Activity.heap_extends_opening (A : Activity) : A.heap.Extends A.opening := by
  unfold opening
  split
  · exact Heap.extends_allocate _ _
  · exact .refl _

/-- If the heap grows in every part, it grows along the course. -/
theorem Course.extends_of_parts (h : Course classes missed heap now e)
    (hparts : ∀ A ∈ now, ∀ m, (A.ending classes).machine? = some m →
      A.heap.Extends m.heap) (he : e.machine? = some m) :
    heap.Extends m.heap := by
  induction h with
  | own hgrown => exact hgrown m he
  | last hstart => exact hstart.trans (hparts _ List.mem_cons_self m he)
  | next hstart hmachine _ ih =>
    have hfirst := hparts _ List.mem_cons_self _ hmachine
    exact hstart.trans
      (hfirst.trans (ih (fun A hA => hparts A (List.mem_cons_of_mem _ hA)) he))

/-- However something ends, the heap has grown, from its opening on. -/
theorem Activity.opening_extends (h : (A.ending classes).machine? = some m) :
    A.opening.Extends m.heap := by
  induction hmeasure : A.measure using WellFoundedLT.induction generalizing A m with
  | ind measure ih =>
    refine A.course.extends_of_parts (fun B hB m' hm' => ?_) h
    have hsmaller : B.measure < measure := hmeasure ▸ (mem_parts.mp hB).measure_lt
    exact B.heap_extends_opening.trans (ih B.measure hsmaller hm' rfl)

theorem Activity.heap_extends (h : (A.ending classes).machine? = some m) :
    A.heap.Extends m.heap :=
  A.heap_extends_opening.trans (opening_extends h)

namespace Course

theorem heap_extends (h : Course classes missed heap now e) (he : e.machine? = some m) :
    heap.Extends m.heap :=
  h.extends_of_parts (fun _ _ _ hm => Activity.heap_extends hm) he

/-- Every part starts on what has become of the first heap. -/
theorem starts (h : Course classes missed heap now e) (hB : B ∈ now) :
    heap.Extends B.heap := by
  induction h with
  | own => cases hB
  | last hstart =>
    obtain rfl := List.mem_singleton.mp hB
    exact hstart
  | next hstart hmachine _ ih =>
    rcases List.mem_cons.mp hB with rfl | hB
    · exact hstart
    · exact hstart.trans ((Activity.heap_extends hmachine).trans (ih hB))

/-- Unless the whole starves no part does, and the whole ends on what has become of the
heap since. -/
theorem ends (h : Course classes missed heap now e) (hB : B ∈ now)
    (he : e.machine? = some m) :
    ∃ m', (B.ending classes).machine? = some m' ∧ m'.heap.Extends m.heap := by
  induction h with
  | own => cases hB
  | last =>
    obtain rfl := List.mem_singleton.mp hB
    exact ⟨m, he, .refl _⟩
  | next _ hmachine hrest ih =>
    rcases List.mem_cons.mp hB with rfl | hB
    · exact ⟨_, hmachine, hrest.heap_extends he⟩
    · exact ih hB he

end Course

end

/-! ## Inside and before -/

namespace Activity

/-- The first activity is over before the second starts. -/
def Precedes (classes : ClassTable) (A B : Activity) : Prop :=
  ∃ m, (A.ending classes).machine? = some m ∧ m.heap.Extends B.heap

variable {classes : ClassTable} {A B C D : Activity} {m : Machine}

theorem pairwise_precedes {missed : EvalError → Prop} {heap : Heap} {now : List Activity}
    {e : Ending} (h : Course classes missed heap now e) :
    now.Pairwise (Precedes classes) := by
  induction h with
  | own => exact .nil
  | last => exact List.pairwise_singleton _ _
  | next _ hmachine hrest ih =>
    exact .cons (fun B hB => ⟨_, hmachine, hrest.starts hB⟩) ih

theorem Part.opening_extends (h : A.Part classes B) : A.opening.Extends B.heap :=
  A.course.starts (mem_parts.mpr h)

theorem Contains.heap_extends (h : A.Contains classes B) : A.heap.Extends B.heap := by
  induction h with
  | refl => exact .refl _
  | @tail B C _ hpart ih =>
    exact ih.trans (B.heap_extends_opening.trans hpart.opening_extends)

/-- Unless an activity starves nothing inside it does, and it ends on what has become of
the heap since. -/
theorem Contains.ends (h : A.Contains classes B)
    (hm : (A.ending classes).machine? = some m) :
    ∃ m', (B.ending classes).machine? = some m' ∧ m'.heap.Extends m.heap := by
  induction h with
  | refl => exact ⟨m, hm, .refl _⟩
  | @tail B C _ hpart ih =>
    obtain ⟨m', hm', hext⟩ := ih
    obtain ⟨m'', hm'', hext'⟩ := B.course.ends (mem_parts.mpr hpart) hm'
    exact ⟨m'', hm'', hext'.trans hext⟩

/-- What is inside the first is over before what is inside the second starts. -/
theorem Precedes.inside (h : A.Precedes classes B) (hC : A.Contains classes C)
    (hD : B.Contains classes D) :
    C.Precedes classes D := by
  obtain ⟨m, hm, hext⟩ := h
  obtain ⟨m', hm', hext'⟩ := hC.ends hm
  exact ⟨m', hm', hext'.trans (hext.trans hD.heap_extends)⟩

/-! ## Positions -/

/-- What goes on at a position: the numbers of the parts to go into, from the outside to
the inside. -/
def atPosition? (classes : ClassTable) : List Nat → Activity → Option Activity
  | [], A => some A
  | i :: position, A => (A.parts classes)[i]?.bind (atPosition? classes position)

theorem atPosition?_cons_eq_some {i : Nat} {position : List Nat} :
    A.atPosition? classes (i :: position) = some C ↔
      ∃ B, (A.parts classes)[i]? = some B ∧ B.atPosition? classes position = some C :=
  Option.bind_eq_some_iff

theorem part_of_getElem? {i : Nat} (h : (A.parts classes)[i]? = some B) :
    A.Part classes B :=
  mem_parts.mp (List.mem_of_getElem? h)

/-- What goes on inside an activity is what goes on at its positions. -/
theorem contains_iff_position :
    A.Contains classes B ↔ ∃ position, A.atPosition? classes position = some B := by
  constructor
  · intro h
    induction h using Relation.ReflTransGen.head_induction_on with
    | refl => exact ⟨[], rfl⟩
    | head hpart _ ih =>
      obtain ⟨position, hposition⟩ := ih
      obtain ⟨i, hi⟩ := List.mem_iff_getElem?.mp (mem_parts.mpr hpart)
      exact ⟨i :: position, atPosition?_cons_eq_some.mpr ⟨_, hi, hposition⟩⟩
  · rintro ⟨position, h⟩
    induction position generalizing A with
    | nil =>
      cases h
      exact .refl
    | cons i position ih =>
      obtain ⟨C, hC, h⟩ := atPosition?_cons_eq_some.mp h
      exact .head (part_of_getElem? hC) (ih h)

/-- Of what goes on at two positions one is inside the other or one precedes the other. -/
theorem cases_of_positions {p q : List Nat} (hB : A.atPosition? classes p = some B)
    (hC : A.atPosition? classes q = some C) (hne : p ≠ q) :
    Relation.TransGen (Part classes) B C ∨ Relation.TransGen (Part classes) C B ∨
      B.Precedes classes C ∨ C.Precedes classes B := by
  induction p generalizing A q with
  | nil =>
    cases hB
    cases q with
    | nil => exact absurd rfl hne
    | cons j q =>
      obtain ⟨D, hD, hC⟩ := atPosition?_cons_eq_some.mp hC
      exact .inl (.head' (part_of_getElem? hD) (contains_iff_position.mpr ⟨q, hC⟩))
  | cons i p ih =>
    obtain ⟨D, hD, hB⟩ := atPosition?_cons_eq_some.mp hB
    have hinside : D.Contains classes B := contains_iff_position.mpr ⟨p, hB⟩
    cases q with
    | nil =>
      cases hC
      exact .inr (.inl (.head' (part_of_getElem? hD) hinside))
    | cons j q =>
      obtain ⟨E, hE, hC⟩ := atPosition?_cons_eq_some.mp hC
      have hinside' : E.Contains classes C := contains_iff_position.mpr ⟨q, hC⟩
      have hordered : (A.parts classes).Pairwise (Precedes classes) :=
        pairwise_precedes A.course
      rw [List.pairwise_iff_getElem] at hordered
      obtain ⟨hi, rfl⟩ := List.getElem?_eq_some_iff.mp hD
      obtain ⟨hj, rfl⟩ := List.getElem?_eq_some_iff.mp hE
      rcases Nat.lt_trichotomy i j with hlt | rfl | hgt
      · exact .inr (.inr (.inl ((hordered i j hi hj hlt).inside hinside hinside')))
      · exact ih hB hC fun heq => hne (heq ▸ rfl)
      · exact .inr (.inr (.inr ((hordered j i hj hi hgt).inside hinside' hinside)))

/-! ## New instances -/

/-- The activity is the evaluation of a creation, and this instance is what it yields. -/
inductive Makes (classes : ClassTable) : Activity → Address → Prop where
  | intro {fuel f cls args a g} (h : (Node.create cls args).exec classes
    (.within classes fuel) f = .done (.inst a, g)) :
    Makes classes (.node fuel f (.create cls args)) a

end Activity

/-- A creation yields the first address that is free when it starts, and goes on from
there. -/
theorem Node.done_of_create {classes : ClassTable} {fuel : Nat} {cls : ClassId}
    {args : List Node} {f g : Frame} {v : Value}
    (h : (create cls args).exec classes (.within classes fuel) f = .done (v, g)) :
    v = .inst f.machine.heap.size ∧
    (f.machine.heap.allocate cls).Extends g.machine.heap := by
  constructor
  · rw [Node.exec] at h
    obtain ⟨created, f₁, hcreated, h⟩ := Run.bind_eq_done_iff.mp h
    cases hcreated
    split at h
    · obtain ⟨values, f₂, -, h⟩ := Run.bind_eq_done_iff.mp h
      obtain ⟨result, f₃, -, h⟩ := Run.bind_eq_done_iff.mp h
      cases h
      rfl
    · cases h
      rfl
  · have hending : ((Activity.node fuel f (create cls args)).ending classes).machine? =
        some g.machine := by
      rw [Activity.ending, Exec.ending, Run.ending, h]
      rfl
    exact Activity.opening_extends hending

namespace Activity

variable {classes : ClassTable} {A B C : Activity} {a b : Address}

theorem Makes.eq_size (h : A.Makes classes a) : a = A.heap.size := by
  cases h with
  | intro h =>
    cases (Node.done_of_create h).1
    rfl

/-- The instance is there before the parts of the creation start. -/
theorem Makes.lt_opening (h : A.Makes classes a) : a < A.opening.size := by
  obtain rfl := h.eq_size
  cases h with
  | intro => exact Nat.lt_of_lt_of_eq (Nat.lt_succ_self _) (Heap.size_allocate _ _).symm

/-- What a creation makes and what is made inside it are different. -/
theorem Makes.lt_of_inside (ha : A.Makes classes a) (hb : B.Makes classes b)
    (h : Relation.TransGen (Part classes) A B) : a < b := by
  obtain ⟨C, hpart, hcontains⟩ := Relation.TransGen.head'_iff.mp h
  rw [hb.eq_size]
  exact Nat.lt_of_lt_of_le ha.lt_opening
    (hpart.opening_extends.trans (Contains.heap_extends hcontains)).size_le

/-- What is made first and what is made later are different. -/
theorem Makes.lt_of_precedes (ha : A.Makes classes a) (hb : B.Makes classes b)
    (h : A.Precedes classes B) : a < b := by
  obtain ⟨m, hm, hext⟩ := h
  rw [hb.eq_size]
  exact Nat.lt_of_lt_of_le ha.lt_opening ((opening_extends hm).trans hext).size_le

/-- At different positions of a run different instances are made. -/
theorem Makes.ne {p q : List Nat} (hB : A.atPosition? classes p = some B)
    (hC : A.atPosition? classes q = some C) (hne : p ≠ q) (ha : B.Makes classes a)
    (hb : C.Makes classes b) : a ≠ b := by
  rcases cases_of_positions hB hC hne with h | h | h | h
  · exact Nat.ne_of_lt (ha.lt_of_inside hb h)
  · exact Nat.ne_of_gt (hb.lt_of_inside ha h)
  · exact Nat.ne_of_lt (ha.lt_of_precedes hb h)
  · exact Nat.ne_of_gt (hb.lt_of_precedes ha h)

end Activity

end Mint
