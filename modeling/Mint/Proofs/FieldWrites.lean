import Mint.Proofs.DottedNames
import Mint.Proofs.Eval.Invariant

/-!
# Assigning to fields

A field assignment finds its instance before it evaluates its value, and writes to that
instance afterwards, whatever the value has done in between to the fields that the
dotted name goes through. `assignment_writes_one_field` says what becomes of the frame,
and what dotted names lead to after the write: all names of the instance see the new
value, and a name that does not read the field, itself or on its way, leads where it led
before.

Instances are shared and may hold themselves, so a dotted name can read one field many
times. `Path.reads` is the list of all its reads, the one that finds nothing included.
-/

namespace Mint

/-! ## One field -/

/-- What a write does to a heap: one field of one instance has a value, and all else is
as it was. -/
structure Heap.FieldSet (before after : Heap) (a : Address) (field : String) (v : Value) :
    Prop where
  size_eq : after.size = before.size
  classOf_eq : ∀ b, after.classOf b = before.classOf b
  field?_eq : ∀ b name,
    after.field? b name = if b = a ∧ name = field then some v else before.field? b name

/-- A write to an instance of the heap does just that. -/
theorem Heap.fieldSet_setField {heap : Heap} {a : Address} (h : a < heap.size)
    (field : String) (v : Value) :
    heap.FieldSet (heap.setField a field v) a field v where
  size_eq := size_setField heap a field v
  classOf_eq b := by
    rw [classOf, object_setField h, classOf]
    split
    · next hb => rw [hb]
    · rfl
  field?_eq b name := by
    rw [field?, object_setField h, field?]
    by_cases hb : b = a
    · rw [if_pos hb, Scope.get?_insert, hb]
      simp only [true_and]
    · rw [if_neg hb, if_neg fun hboth => hb hboth.1]

/-! ## What a dotted name reads -/

theorem Value.typeName_of_classOf {classes : ClassTable} {heap heap' : Heap}
    (h : ∀ a, heap'.classOf a = heap.classOf a) (v : Value) :
    v.typeName classes heap' = v.typeName classes heap := by
  cases v with
  | inst a => rw [typeName, typeName, h a]
  | _ => rfl

namespace Path

/-- The fields that are read in following `rest` from a value, each with the instance it
is read from. The last of them may not be there. -/
def fieldsRead (heap : Heap) (value : Value) : List String → List (Address × String)
  | [] => []
  | field :: rest =>
    match value with
    | .inst a =>
      match heap.field? a field with
      | some next => (a, field) :: fieldsRead heap next rest
      | none => [(a, field)]
    | _ => []

/-- The fields that a dotted name reads, each with the instance it is read from. -/
def reads (heap : Heap) (scope : Scope) : List String → List (Address × String)
  | [] => []
  | first :: rest =>
    match scope.get? first with
    | some value => fieldsRead heap value rest
    | none => []

variable {classes : ClassTable} {heap heap' : Heap} {scope : Scope}
  {whole whole' path rest : List String} {last : String} {value v : Value} {a : Address}
  {field : String}

/-- Following fields depends on those that are read, and on the classes of the
instances. -/
theorem follow_of_fieldsRead (hclass : ∀ a, heap'.classOf a = heap.classOf a)
    (h : ∀ a name,
      (a, name) ∈ fieldsRead heap value rest → heap'.field? a name = heap.field? a name) :
    follow classes heap' whole last value rest =
      follow classes heap whole last value rest := by
  induction rest generalizing last value with
  | nil => rfl
  | cons field rest ih =>
    cases value with
    | inst a =>
      simp only [fieldsRead] at h
      cases hfield : heap.field? a field with
      | some next =>
        rw [hfield] at h
        have hsame := h a field List.mem_cons_self
        simp only [follow, hsame, hfield]
        exact ih fun b name hmem => h b name (List.mem_cons_of_mem _ hmem)
      | none =>
        rw [hfield] at h
        have hsame := h a field (List.mem_singleton_self _)
        simp only [follow, hsame, hfield]
    | _ => simp only [follow, Value.typeName_of_classOf hclass]

/-- A dotted name leads to the same in two heaps, or fails in the same way, if its reads
find the same. -/
theorem resolve_of_reads (hclass : ∀ a, heap'.classOf a = heap.classOf a)
    (h : ∀ a name,
      (a, name) ∈ reads heap scope path → heap'.field? a name = heap.field? a name) :
    resolve classes heap' scope path = resolve classes heap scope path := by
  cases path with
  | nil => rfl
  | cons first rest =>
    simp only [reads] at h
    simp only [resolve]
    cases hfirst : scope.get? first with
    | none => rfl
    | some value =>
      rw [hfirst] at h
      exact follow_of_fieldsRead hclass h

/-- The field of what a dotted name leads to. -/
theorem resolve_concat (h : resolve classes heap scope path = .ok (.inst a))
    (hfield : heap.field? a field = some v) :
    resolve classes heap scope (path ++ [field]) = .ok v :=
  resolve_eq_ok_iff.mpr (.field (resolve_eq_ok_iff.mp h) hfield)

/-- An assignment has a target if its object is an instance. -/
theorem target_eq_ok_iff {object : List String} :
    target classes heap scope object field = .ok a ↔
    resolve classes heap scope object = .ok (.inst a) := by
  unfold target
  cases hobject : resolve classes heap scope object with
  | error e => simp
  | ok v => cases v <;> simp

end Path

/-! ## The assignment -/

section

variable {classes : ClassTable} {d : Dispatch} {object : List String} {field : String}
  {frame : Frame}

/-- Without a target nothing runs. -/
theorem Node.exec_setField_of_error {cause : EvalError} (value : Node)
    (h : Path.target classes frame.machine.heap frame.scope object field = .error cause) :
    (Node.setField object field value).exec classes d frame =
      .failed (.error cause, frame) := by
  have hlookup : Node.ofLookup
      (fun heap scope => Path.target classes heap scope object field) frame =
      .failed (.error cause, frame) := by rw [Node.ofLookup, h]
  rw [Node.exec, Run.bind_failed hlookup]

/-- With a target the value is evaluated, and written to the target if there is one. -/
theorem Node.exec_setField_of_ok {o : Address} (value : Node)
    (h : Path.target classes frame.machine.heap frame.scope object field = .ok o) :
    (Node.setField object field value).exec classes d frame = (do
      let v ← value.exec classes d
      Exec.ofAction (Action.setField o field v)
      return v : Exec Value) frame := by
  have hlookup : Node.ofLookup
      (fun heap scope => Path.target classes heap scope object field) frame =
      .done (o, frame) := by rw [Node.ofLookup, h]
  rw [Node.exec, Run.bind_done hlookup]

end

namespace Frame

/-- What a dotted name leads to in a frame. -/
def resolve (classes : ClassTable) (frame : Frame) (path : List String) :
    Except EvalError Value :=
  Path.resolve classes frame.machine.heap frame.scope path

/-- The fields that a dotted name reads in a frame. -/
def reads (frame : Frame) (path : List String) : List (Address × String) :=
  Path.reads frame.machine.heap frame.scope path

/-- A write changes a frame by one field. -/
structure FieldSet (before after : Frame) (a : Address) (field : String) (v : Value) :
    Prop where
  scope_eq : after.scope = before.scope
  sink_eq : after.machine.sink = before.machine.sink
  heap : before.machine.heap.FieldSet after.machine.heap a field v

namespace FieldSet

variable {classes : ClassTable} {before after : Frame} {a : Address} {field : String}
  {v : Value} {path : List String}

/-- Whatever the instance is called, its field is what was written. -/
theorem resolve_concat (h : before.FieldSet after a field v)
    (hpath : after.resolve classes path = .ok (.inst a)) :
    after.resolve classes (path ++ [field]) = .ok v := by
  refine Path.resolve_concat hpath ?_
  rw [h.heap.field?_eq, if_pos ⟨rfl, rfl⟩]

/-- A dotted name that does not read the field does not notice the write. -/
theorem resolve_eq (h : before.FieldSet after a field v)
    (hpath : (a, field) ∉ before.reads path) :
    after.resolve classes path = before.resolve classes path := by
  rw [resolve, h.scope_eq]
  refine Path.resolve_of_reads h.heap.classOf_eq fun b name hmem => ?_
  rw [h.heap.field?_eq, if_neg]
  rintro ⟨rfl, rfl⟩
  exact hpath hmem

end FieldSet

end Frame

/-- A field assignment whose dotted name leads to no instance fails and leaves the frame
as it is, and the value is not evaluated: whatever tree it is, the outcome is the same.
If the name leads to an instance `o` of the heap, the assignment ends as the value does
where that returns, fails or does not end. Where the value yields `v`, so does the
assignment, and the frame that the value has left changes in one field, that of `o`,
wherever the dotted name leads by then. So in the end each name of `o` finds `v` in the
field, and a dotted name that did not read the field leads where it led. -/
theorem assignment_writes_one_field (classes : ClassTable) (object : List String)
    (field : String) (frame : Frame) :
    ((∀ o, frame.resolve classes object ≠ .ok (.inst o)) →
      ∃ cause, ∀ fuel value,
        (Node.setField object field value).exec classes (.within classes fuel) frame =
          .failed (.error cause, frame)) ∧
    ∀ o, frame.resolve classes object = .ok (.inst o) → o < frame.machine.heap.size →
      ∀ fuel (value : Node), (∀ signal after,
        value.exec classes (.within classes fuel) frame = .failed (signal, after) →
        (Node.setField object field value).exec classes (.within classes fuel) frame =
          .failed (signal, after)) ∧
      (value.exec classes (.within classes fuel) frame = .starved →
        (Node.setField object field value).exec classes (.within classes fuel) frame =
          .starved) ∧
      ∀ v after, value.exec classes (.within classes fuel) frame = .done (v, after) →
        ∃ final, (Node.setField object field value).exec classes
          (.within classes fuel) frame = .done (v, final) ∧
          after.FieldSet final o field v ∧
          (∀ path, final.resolve classes path = .ok (.inst o) →
            final.resolve classes (path ++ [field]) = .ok v) ∧
          ∀ path, (o, field) ∉ after.reads path →
            final.resolve classes path = after.resolve classes path := by
  constructor
  · intro hobject
    cases htarget : Path.target classes frame.machine.heap frame.scope object field with
    | ok o => exact absurd (Path.target_eq_ok_iff.mp htarget) (hobject o)
    | error cause =>
      exact ⟨cause, fun _ value => Node.exec_setField_of_error value htarget⟩
  · intro o hobject ho fuel value
    have htarget :
        Path.target classes frame.machine.heap frame.scope object field = .ok o :=
      Path.target_eq_ok_iff.mpr hobject
    refine ⟨fun signal after h => ?_, fun h => ?_, fun v after h => ?_⟩
    · rw [Node.exec_setField_of_ok value htarget, Run.bind_failed h]
    · rw [Node.exec_setField_of_ok value htarget, Run.bind_starved h]
    · -- the value cannot take the instance away
      have hafter : o < after.machine.heap.size :=
        Nat.lt_of_lt_of_le ho (Node.exec_extends h).size_le
      have hset : after.FieldSet
          { after with machine :=
            { after.machine with heap := after.machine.heap.setField o field v } }
          o field v :=
        ⟨rfl, rfl, Heap.fieldSet_setField hafter field v⟩
      refine ⟨_, ?_, hset, fun _ => hset.resolve_concat, fun _ => hset.resolve_eq⟩
      rw [Node.exec_setField_of_ok value htarget, Run.bind_done h]
      rfl

/-- Links of a chain, and a method that hangs a link onto another and returns it. -/
def chainClasses : ClassTable := ⟨#[⟨"Link", none, [⟨"hang", ["other"], .body (.block
  [.setField ["self"] "next" (.path ["other"]), .ret (.path ["self"])])⟩]⟩]⟩

/-- Two links `x` and `y`, and what comes next after each of them. -/
def chainFrame (afterX afterY : Address) : Frame := ⟨⟨[("x", .inst 0), ("y", .inst 1)]⟩,
  ⟨⟨#[⟨0, ⟨[("next", .inst afterX)]⟩⟩, ⟨0, ⟨[("next", .inst afterY)]⟩⟩]⟩, .unlimited⟩⟩

/-- Hangs `x` onto itself. -/
def hangX : Node := .call (.path ["x"]) "hang" [.path ["x"]]

/-- In `x.next.next = x.hang(x)` the link `x.next` is `y`, and it is written to though
`x.next` is `x` by then. In `x.last.next = x.hang(x)` there is nothing to write to, and
`x` is not hung. -/
theorem assignment_writes_one_field_rerouted :
    (chainFrame 1 1).resolve chainClasses ["x", "next"] = .ok (.inst 1) ∧
    hangX.exec chainClasses (.within chainClasses 1) (chainFrame 1 1) =
      .done (.inst 0, chainFrame 0 1) ∧
    (chainFrame 0 1).resolve chainClasses ["x", "next"] = .ok (.inst 0) ∧
    (∃ final, (Node.setField ["x", "next"] "next" hangX).exec chainClasses
      (.within chainClasses 1) (chainFrame 1 1) =
        .done (.inst 0, final) ∧
      (chainFrame 0 1).FieldSet final 1 "next" (.inst 0) ∧
      final.resolve chainClasses ["y", "next"] = .ok (.inst 0) ∧
      final.resolve chainClasses ["x", "next", "next"] = .ok (.inst 0)) ∧
    ∃ cause, (Node.setField ["x", "last"] "next" hangX).exec chainClasses
      (.within chainClasses 1) (chainFrame 1 1) =
      .failed (.error cause, chainFrame 1 1) := by
  have hobject :
    (chainFrame 1 1).resolve chainClasses ["x", "next"] = .ok (.inst 1) := by rfl
  have hvalue : hangX.exec chainClasses (.within chainClasses 1) (chainFrame 1 1) =
      .done (.inst 0, chainFrame 0 1) := by
    decide +kernel
  obtain ⟨-, -, hdone⟩ := (assignment_writes_one_field chainClasses ["x", "next"] "next"
    (chainFrame 1 1)).2 1 hobject (by decide) 1 hangX
  obtain ⟨final, hfinal, hset, hnames, hothers⟩ := hdone _ _ hvalue
  refine ⟨hobject, hvalue, rfl, ⟨final, hfinal, hset, hnames ["y"] ?_, ?_⟩, ?_⟩
  · rw [hothers ["y"] (by decide)]
    rfl
  · rw [hothers ["x", "next", "next"] (by decide)]
    rfl
  · obtain ⟨cause, hcause⟩ :=
      (assignment_writes_one_field chainClasses ["x", "last"] "next" (chainFrame 1 1)).1
        (fun o h => by cases h)
    exact ⟨cause, hcause 1 hangX⟩

end Mint
