import Mint.Value

/-!
# Scopes

A scope binds names to values. It is used for variables and for the fields of instances.
A name keeps its place when it is bound anew; `Scope.get?_insert` is all that the rest
of the library needs to know about that.

No name is bound twice (`Scope.Distinct`) in the empty scope, and binding a name keeps
it so. Every scope comes about in this way: the variables a program starts with, those
of calls, and the fields of instances (`Frame.distinct_start`,
`Frame.distinct_of_call`, `Frame.distinct_of_exec`).
-/

namespace Mint

/-- Bindings of names to values, in the order in which the names were first bound. -/
structure Scope where
  bindings : List (String × Value)
deriving DecidableEq

namespace Scope

/-- The scope that binds nothing. -/
def empty : Scope := ⟨[]⟩

instance : EmptyCollection Scope := ⟨empty⟩

/-- The value bound to a name. -/
def get? (scope : Scope) (name : String) : Option Value := scope.bindings.lookup name

/-- The bound names. -/
def names (scope : Scope) : List String := scope.bindings.map Prod.fst

/-- Rebinds `name` where it stands, or adds it at the end. -/
def put (name : String) (value : Value) : List (String × Value) → List (String × Value)
  | [] => [(name, value)]
  | (bound, old) :: rest =>
    if bound = name then (name, value) :: rest else (bound, old) :: put name value rest

/-- Binds a name, replacing what it was bound to. -/
def insert (scope : Scope) (name : String) (value : Value) : Scope :=
  ⟨put name value scope.bindings⟩

/-- No name is bound twice. -/
def Distinct (scope : Scope) : Prop := scope.names.Nodup

theorem distinct_empty : (∅ : Scope).Distinct := List.nodup_nil

theorem mem_names_put {name key : String} {value : Value}
    {bindings : List (String × Value)} :
    key ∈ (put name value bindings).map Prod.fst ↔
    key = name ∨ key ∈ bindings.map Prod.fst := by
  induction bindings with
  | nil =>
    rw [put, List.map_singleton, List.mem_singleton, List.map_nil,
      or_iff_left List.not_mem_nil]
  | cons entry rest ih =>
    obtain ⟨bound, old⟩ := entry
    rw [put]
    split
    · next hbound =>
      rw [hbound, List.map_cons, List.map_cons, List.mem_cons, ← or_assoc, or_self]
    · rw [List.map_cons, List.map_cons, List.mem_cons, List.mem_cons, ih, or_left_comm]

theorem Distinct.insert {scope : Scope} (h : scope.Distinct) (name : String)
    (value : Value) :
    (scope.insert name value).Distinct := by
  obtain ⟨bindings⟩ := scope
  show ((put name value bindings).map Prod.fst).Nodup
  replace h : (bindings.map Prod.fst).Nodup := h
  induction bindings with
  | nil => exact List.pairwise_singleton _ name
  | cons entry rest ih =>
    obtain ⟨bound, old⟩ := entry
    obtain ⟨hbound, hrest⟩ := List.nodup_cons.mp h
    rw [put]
    split
    · next heq => exact heq ▸ h
    · next hne =>
      refine List.nodup_cons.mpr ⟨fun hmem => ?_, ih hrest⟩
      rcases mem_names_put.mp hmem with heq | hmem
      · exact hne heq
      · exact hbound hmem

@[simp] theorem get?_empty (name : String) : (∅ : Scope).get? name = Option.none := rfl

theorem lookup_put (name key : String) (value : Value)
    (bindings : List (String × Value)) :
    (put name value bindings).lookup key =
      if key = name then some value else bindings.lookup key := by
  induction bindings with
  | nil =>
    by_cases h : key = name
    · simp [put, h]
    · simp [put, List.lookup_cons, beq_false_of_ne h, h]
  | cons entry rest ih =>
    obtain ⟨bound, old⟩ := entry
    by_cases hb : bound = name
    · subst hb
      by_cases hk : key = bound
      · simp [put, hk]
      · simp [put, List.lookup_cons, beq_false_of_ne hk, hk]
    · by_cases hk : key = bound
      · subst hk
        simp [put, hb]
      · simp [put, hb, List.lookup_cons, beq_false_of_ne hk, ih]

/-- Reading after writing. -/
theorem get?_insert (scope : Scope) (name key : String) (value : Value) :
    (scope.insert name value).get? key =
      if key = name then some value else scope.get? key :=
  lookup_put name key value scope.bindings

@[simp] theorem get?_insert_self (scope : Scope) (name : String) (value : Value) :
    (scope.insert name value).get? name = some value := by
  simp [get?_insert]

theorem get?_insert_ne (scope : Scope) {name key : String} (value : Value)
    (h : key ≠ name) :
    (scope.insert name value).get? key = scope.get? key := by
  simp [get?_insert, h]

theorem eq_of_get?_singleton {key name : String} {v w : Value}
    (h : Scope.get? ⟨[(key, v)]⟩ name = some w) : w = v := by
  rw [get?, List.lookup_cons] at h
  split at h
  · exact (Option.some.inj h).symm
  · cases h

end Scope

end Mint
