import Mint.Proofs.Calls
import Mint.Proofs.Eval.Activity

/-!
# Inherited methods

A class answers to the methods of its own list and of the lists of its ancestors.
`method_lookup_flattens_inheritance` says which of them a name means: the last of that
name in the nearest list that has one, and so the last of that name in all the lists put
one after the other, the oldest ancestor first. The number of parameters has no say in
this. It only decides whether the method that was found can be called, and calls and
`ClassTable.hasMethod` decide it in the same way.

Classes come after their parents (`ClassTable.Built`), so that a class and its ancestors
make up a finite chain, which is the line that look-ups go along
(`ClassTable.Built.chain_lineage`).
-/

namespace Mint

/-! ## Chains of classes -/

namespace ClassTable

/-- The table was put together class by class, and a class had a parent only if that was
there already. -/
inductive Built : ClassTable → Prop where
  | empty : Built ∅
  | push {table cls} (htable : Built table)
    (hparent : ∀ j, cls.parent = some j → j < table.size) : Built (table.push cls)

/-- The class with that number and all its ancestors, the nearest first. -/
inductive Chain (table : ClassTable) : ClassId → List Class → Prop where
  | oldest {i} (hparent : (table.get i).parent = none) : Chain table i [table.get i]
  | child {i j chain} (hparent : (table.get i).parent = some j)
    (hchain : Chain table j chain) :
    Chain table i (table.get i :: chain)

variable {table : ClassTable} {i j : ClassId}

theorem Built.parent_lt (h : table.Built) (hparent : (table.get i).parent = some j) :
    j < i := by
  induction h generalizing i j with
  | empty => cases hparent
  | @push table cls _ hcls ih =>
    rw [get_push] at hparent
    split at hparent
    · next hi =>
      rw [hi]
      exact hcls j hparent
    · exact ih hparent

theorem Built.chain_lineageWithin (h : table.Built) {fuel : Nat} (hfuel : i < fuel) :
    table.Chain i (table.lineageWithin fuel i) := by
  induction fuel generalizing i with
  | zero => exact absurd hfuel (Nat.not_lt_zero i)
  | succ fuel ih =>
    rw [lineageWithin]
    cases hparent : (table.get i).parent with
    | none => exact .oldest hparent
    | some j =>
      exact .child hparent
        (ih (Nat.lt_of_lt_of_le (h.parent_lt hparent) (Nat.le_of_lt_succ hfuel)))

/-- The line that look-ups go along leaves out no ancestor. -/
theorem Built.chain_lineage (h : table.Built) (i : ClassId) :
    table.Chain i (table.lineage i) :=
  h.chain_lineageWithin (Nat.lt_succ_self i)

end ClassTable

/-! ## Methods by name -/

namespace Method

/-- The method is the last of that name in the list. -/
def IsLast (name : String) (methods : List Method) (method : Method) : Prop :=
  ∃ earlier later, methods = earlier ++ method :: later ∧ method.name = name ∧
    ∀ other ∈ later, other.name ≠ name

/-- The method is the last of that name in the list of the first class that has one of
that name. -/
def IsNearest (name : String) (chain : List Class) (method : Method) : Prop :=
  ∃ nearer cls farther, chain = nearer ++ cls :: farther ∧
    (∀ other ∈ nearer, ∀ m ∈ other.methods, m.name ≠ name) ∧
    IsLast name cls.methods method

end Method

theorem Class.own?_eq_some_iff {cls : Class} {name : String} {method : Method} :
    cls.own? name = some method ↔ Method.IsLast name cls.methods method := by
  rw [own?, List.find?_eq_some_iff_append]
  constructor
  · rintro ⟨hname, later, earlier, hsplit, hlater⟩
    refine ⟨earlier.reverse, later.reverse, ?_, beq_iff_eq.mp hname,
      fun other hother => ?_⟩
    · have hreverse := congrArg List.reverse hsplit
      simpa using hreverse
    · simpa using hlater other (List.mem_reverse.mp hother)
  · rintro ⟨earlier, later, hsplit, hname, hlater⟩
    refine ⟨beq_iff_eq.mpr hname, later.reverse, earlier.reverse, ?_,
      fun other hother => ?_⟩
    · rw [hsplit]
      simp
    · simpa using hlater other (List.mem_reverse.mp hother)

theorem Class.own?_eq_none_iff {cls : Class} {name : String} :
    cls.own? name = none ↔ ∀ m ∈ cls.methods, m.name ≠ name := by
  simp [own?]

namespace ClassTable

variable {table other : ClassTable} {i j : ClassId} {name : String} {arity : Nat}

theorem method?_eq_some_iff {method : Method} :
    table.method? i name = some method ↔
    Method.IsNearest name (table.lineage i) method := by
  simp only [method?, List.findSome?_eq_some_iff, Class.own?_eq_some_iff,
    Class.own?_eq_none_iff]
  constructor
  · rintro ⟨nearer, cls, farther, hsplit, hlast, hnearer⟩
    exact ⟨nearer, cls, farther, hsplit, hnearer, hlast⟩
  · rintro ⟨nearer, cls, farther, hsplit, hnearer, hlast⟩
    exact ⟨nearer, cls, farther, hsplit, hlast, hnearer⟩

theorem method?_eq_none_iff : table.method? i name = none ↔
    ∀ cls ∈ table.lineage i, ∀ m ∈ cls.methods, m.name ≠ name := by
  simp only [method?, List.findSome?_eq_none_iff, Class.own?_eq_none_iff]

/-- A class without a parent has no methods but its own. -/
theorem method?_of_parent_eq_none (hparent : (table.get i).parent = none) :
    table.method? i name = (table.get i).own? name := by
  rw [method?, lineage, lineageWithin, hparent]
  exact List.findSome?_singleton

/-- The methods of a chain of classes, put together from the oldest class on, are
searched as the chain is. -/
theorem own?_flatMap (cls : String) (chain : List Class) :
    (Class.mk cls none (chain.reverse.flatMap Class.methods)).own? name =
      chain.findSome? fun cls => cls.own? name := by
  rw [Class.own?, List.reverse_flatMap, List.reverse_reverse, List.find?_flatMap]
  rfl

theorem hasMethod_iff : table.hasMethod i name arity = true ↔
    ∃ method, table.method? i name = some method ∧ method.params.length = arity := by
  rw [hasMethod, Option.any_eq_true]
  simp only [beq_iff_eq]

end ClassTable

/-! ## Calls -/

section

variable {table : ClassTable} {m : Machine} {a : Address} {name : String}
  {args : List Value}

theorem callMethod_of_not_hasMethod
    (h : table.hasMethod (m.heap.classOf a) name args.length = false) (fuel : Nat) :
    callMethod table fuel (.inst a) name args m =
      .failed (.noSuchMethod name (table.get (m.heap.classOf a)).name args.length,
        m) := by
  have hnone : table.methodTaking? (m.heap.classOf a) name args.length = none := by
    rw [ClassTable.hasMethod_eq_isSome, Option.isSome_eq_false_iff] at h
    exact Option.isNone_iff_eq_none.mp h
  have hmissing : (Value.inst a).methodFor table m.heap name args.length =
      .error (.noSuchMethod name (table.get (m.heap.classOf a)).name args.length) := by
    rw [Value.methodFor, hnone]
  cases fuel with
  | zero | succ =>
    rw [callMethod, Action.heap_bind, hmissing]
    rfl

/-- A call runs a body only if there is a method for that many arguments. -/
theorem Activity.hasMethod_of_part {fuel : Nat} {B : Activity}
    (h : Activity.Part table (.call fuel m (.inst a) name args) B) :
    table.hasMethod (m.heap.classOf a) name args.length = true := by
  cases h with
  | body hmethod =>
    obtain ⟨_, ⟨⟩, htaking⟩ := Value.exists_of_methodFor hmethod
    exact ClassTable.hasMethod_iff_methodTaking?.mpr ⟨_, htaking⟩

theorem Activity.part_of_methodTaking? {method : Method}
    (h : table.methodTaking? (m.heap.classOf a) name args.length = some method)
    (fuel : Nat) :
    Activity.Part table (.call (fuel + 1) m (.inst a) name args)
      (.node fuel ⟨method.frame (.inst a) args, m⟩ method.body) := by
  refine .body ?_
  rw [Value.methodFor, h]

/-- Where there is a method, a call runs its body, if calls may nest at all. -/
theorem exists_part_or_starved
    (h : table.hasMethod (m.heap.classOf a) name args.length = true) (fuel : Nat) :
    (∃ B, Activity.Part table (.call fuel m (.inst a) name args) B) ∨
      callMethod table fuel (.inst a) name args m = .starved := by
  obtain ⟨method, hmethod⟩ := ClassTable.hasMethod_iff_methodTaking?.mp h
  cases fuel with
  | zero =>
    refine .inr ?_
    have hfound :
        (Value.inst a).methodFor table m.heap name args.length = .ok method := by
      rw [Value.methodFor, hmethod]
    rw [callMethod, Action.heap_bind, hfound]
    rfl
  | succ fuel => exact .inl ⟨_, Activity.part_of_methodTaking? hmethod fuel⟩

end

/-- A class and its ancestors are a finite chain. A name means the last method of that
name in the nearest class of the chain that has one, and so what it means in a class
that has no parent and all methods of the chain, the oldest class first. Whether the
class has the method for a number of arguments is decided on that one method, and a call
on an instance of the class fails for want of a method, before any body is run, exactly
if it has not. -/
theorem method_lookup_flattens_inheritance {table : ClassTable} (htable : table.Built)
    (i : ClassId) (name : String) :
    table.Chain i (table.lineage i) ∧
    (∀ method, table.method? i name = some method ↔
      Method.IsNearest name (table.lineage i) method) ∧
    (table.method? i name = none ↔
      ∀ cls ∈ table.lineage i, ∀ m ∈ cls.methods, m.name ≠ name) ∧
    (∀ (flat : ClassTable) j cls,
      flat.get j = ⟨cls, none, (table.lineage i).reverse.flatMap Class.methods⟩ →
      flat.method? j name = table.method? i name) ∧
    (∀ arity, table.hasMethod i name arity = true ↔
      ∃ method, table.method? i name = some method ∧ method.params.length = arity) ∧
    ∀ (m : Machine) a, m.heap.classOf a = i → ∀ args fuel,
      (callMethod table fuel (.inst a) name args m =
            .failed (.noSuchMethod name (table.get i).name args.length, m) ∧
          (∀ B, ¬Activity.Part table (.call fuel m (.inst a) name args) B) ↔
        table.hasMethod i name args.length = false) ∧
      ∀ method, table.methodTaking? i name args.length = some method →
        Activity.Part table (.call (fuel + 1) m (.inst a) name args)
          (.node fuel ⟨method.frame (.inst a) args, m⟩ method.body) := by
  refine ⟨htable.chain_lineage i, fun method => ClassTable.method?_eq_some_iff,
    ClassTable.method?_eq_none_iff, fun flat j cls hflat => ?_,
    fun arity => ClassTable.hasMethod_iff, ?_⟩
  · rw [ClassTable.method?_of_parent_eq_none (by rw [hflat]), hflat,
      ClassTable.own?_flatMap]
    rfl
  · rintro m a rfl args fuel
    refine ⟨⟨fun h => ?_, fun h => ?_⟩,
      fun method hmethod => Activity.part_of_methodTaking? hmethod fuel⟩
    · refine Bool.eq_false_iff.mpr fun hmethod => ?_
      rcases exists_part_or_starved hmethod fuel with ⟨B, hpart⟩ | hstarved
      · exact h.2 B hpart
      · cases hstarved.symm.trans h.1
    · refine ⟨callMethod_of_not_hasMethod h fuel, fun B hpart => ?_⟩
      rw [Activity.hasMethod_of_part hpart] at h
      cases h

/-- `Base` has `f` for one argument and `g` for none. `Middle` has `f` twice, for none
and for two arguments, and `Leaf` has another `g`. -/
def overridingClasses : ClassTable := ⟨#[
  ⟨"Base", none, [⟨"f", ["x"], .none⟩, ⟨"g", [], .none⟩]⟩,
  ⟨"Middle", some 0, [⟨"f", [], .none⟩, ⟨"f", ["x", "y"], .none⟩]⟩,
  ⟨"Leaf", some 1, [⟨"g", ["x"], .none⟩]⟩]⟩

theorem built_overridingClasses : overridingClasses.Built :=
  .push (.push (.push .empty (by simp)) (by simp [ClassTable.size_push]))
    (by simp [ClassTable.size_push])

/-- The three classes in one. -/
def flatClasses : ClassTable :=
  ⟨#[⟨"Flat", none, [⟨"f", ["x"], .none⟩, ⟨"g", [], .none⟩, ⟨"f", [], .none⟩,
    ⟨"f", ["x", "y"], .none⟩, ⟨"g", ["x"], .none⟩]⟩]⟩

/-- A machine with one instance of `Leaf`. -/
def leafMachine : Machine := ⟨⟨#[⟨2, ∅⟩]⟩, .unlimited⟩

/-- The second `f` of `Middle` hides the first, and that of `Base` as well, though only
the one of `Base` takes one argument. -/
theorem method_lookup_flattens_inheritance_overridden :
    overridingClasses.Built ∧
    overridingClasses.Chain 2 [overridingClasses.get 2, overridingClasses.get 1,
      overridingClasses.get 0] ∧
    Method.IsNearest "f" (overridingClasses.lineage 2) ⟨"f", ["x", "y"], .none⟩ ∧
    flatClasses.method? 0 "f" = some ⟨"f", ["x", "y"], .none⟩ ∧
    overridingClasses.hasMethod 2 "f" 2 = true ∧
    callMethod overridingClasses 1 (.inst 0) "f" [.number 1] leafMachine =
      .failed (.noSuchMethod "f" "Leaf" 1, leafMachine) := by
  obtain ⟨hchain, hnearest, -, hflat, harity, hcalls⟩ :=
    method_lookup_flattens_inheritance built_overridingClasses 2 "f"
  have hmethod : overridingClasses.method? 2 "f" = some ⟨"f", ["x", "y"], .none⟩ := by
    decide +kernel
  refine ⟨built_overridingClasses, hchain, (hnearest _).mp hmethod, ?_,
    (harity 2).mpr ⟨_, hmethod, rfl⟩, ?_⟩
  · rw [hflat flatClasses 0 "Flat" rfl, hmethod]
  · exact ((hcalls leafMachine 0 rfl [.number 1] 1).1.mpr (by decide +kernel)).1

end Mint
