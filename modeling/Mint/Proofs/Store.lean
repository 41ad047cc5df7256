import Mint.Proofs.Eval.Position
import Mint.Proofs.MissingMethods

/-!
# The store

Instances, fields and variables only come into being. Code has no way to take an
instance, a field or a variable away, to give an instance another class, or to refer to
an instance that has not been made. So it is for every tree in every sound frame,
whether the tree yields a value, returns one or fails, be it halfway through a
constructor (`store_stays_sound_and_grows`).

Soundness and the growth of the heap are known (`Invariant.sound`, `Heap.Extends`), and
so is that no instance is made twice (`Activity.Makes.ne`). What is left is what becomes
of scopes: code binds names in them, one after the other, and does nothing else with
them (`Node.exec_binds`). So names stay, and no name comes to be bound twice
(`Frame.distinct_of_exec`).
-/

namespace Mint

/-! ## Binding names -/

namespace Scope

/-- `after` is `before` with any number of names bound, one after the other. -/
inductive Extends (before : Scope) : Scope → Prop where
  | refl : Extends before before
  | insert {scope : Scope} (name : String) (v : Value) (h : Extends before scope) :
    Extends before (scope.insert name v)

variable {scope scope' scope'' : Scope}

theorem Extends.trans (h : scope.Extends scope') (h' : scope'.Extends scope'') :
    scope.Extends scope'' := by
  induction h' with
  | refl => exact h
  | insert name v _ ih => exact .insert name v ih

/-- Binding names unbinds none. -/
theorem Extends.names_subset (h : scope.Extends scope') : scope.names ⊆ scope'.names := by
  induction h with
  | refl => exact List.Subset.refl _
  | insert name v _ ih =>
    exact List.Subset.trans ih fun _ hname => mem_names_put.mpr (.inr hname)

theorem Extends.distinct (h : scope.Extends scope') (hscope : scope.Distinct) :
    scope'.Distinct := by
  induction h with
  | refl => exact hscope
  | insert name v _ ih => exact ih.insert name v

/-- A call begins with the receiver and the parameters bound, one after the other. -/
theorem extends_frame (method : Method) (receiver : Value) (args : List Value) :
    (∅ : Scope).Extends (method.frame receiver args) := by
  have hfoldl : ∀ (bindings : List (String × Value)) (scope : Scope),
      scope.Extends (bindings.foldl
        (fun scope binding => scope.insert binding.1 binding.2) scope) := by
    intro bindings
    induction bindings with
    | nil => exact fun _ => .refl
    | cons binding rest ih =>
      exact fun scope => Extends.trans (.insert binding.1 binding.2 .refl)
        (ih (scope.insert binding.1 binding.2))
  exact Extends.trans (.insert Method.receiverName receiver .refl)
    (hfoldl (method.params.zip args) _)

end Scope

namespace Heap

/-- What becomes of the fields of instances: names are bound among them. -/
def FieldsExtend (before after : Heap) : Prop :=
  ∀ a, (before.object a).fields.Extends (after.object a).fields

/-- No instance has lost a field. -/
def KeepsFields (before after : Heap) : Prop :=
  ∀ a, (before.object a).fields.names ⊆ (after.object a).fields.names

variable {heap heap' heap'' : Heap}

theorem FieldsExtend.refl (heap : Heap) : heap.FieldsExtend heap := fun _ => .refl

theorem FieldsExtend.trans (h : heap.FieldsExtend heap')
    (h' : heap'.FieldsExtend heap'') : heap.FieldsExtend heap'' :=
  fun a => (h a).trans (h' a)

theorem FieldsExtend.keepsFields (h : heap.FieldsExtend heap') : heap.KeepsFields heap' :=
  fun a => (h a).names_subset

theorem fieldsExtend_allocate (heap : Heap) (cls : ClassId) :
    heap.FieldsExtend (heap.allocate cls) := by
  intro a
  rw [object_allocate]
  split
  · next ha =>
    rw [object_of_size_le (Nat.le_of_eq ha.symm)]
    exact .refl
  · exact .refl

theorem fieldsExtend_setField (heap : Heap) (a : Address) (field : String) (v : Value) :
    heap.FieldsExtend (heap.setField a field v) := by
  intro b
  by_cases ha : a < heap.size
  · rw [object_setField ha]
    split
    · next hb =>
      rw [hb]
      exact .insert field v .refl
    · exact .refl
  · rw [setField_of_size_le (Nat.not_lt.mp ha)]
    exact .refl

end Heap

section

variable {α β : Type}

/-- However the action ends, it has only bound names, those of fields. -/
def Action.Binds (x : Action α) : Prop :=
  ∀ m m', (x m).state? = some m' → m.heap.FieldsExtend m'.heap

/-- However the code ends, it has only bound names, those of variables and of fields. -/
def Exec.Binds (x : Exec α) : Prop := ∀ f f', (x f).state? = some f' →
  f.scope.Extends f'.scope ∧ f.machine.heap.FieldsExtend f'.machine.heap

theorem Action.Binds.bind {x : Action α} {g : α → Action β} (h : x.Binds)
    (k : ∀ a, (g a).Binds) :
    Action.Binds (x >>= g) := by
  intro m m' hm'
  rcases Run.state?_bind hm' with hx | ⟨a, m₁, hx, hg⟩
  · exact h m m' hx
  · exact (h m m₁ hx).trans (k a m₁ m' hg)

theorem Exec.Binds.bind {x : Exec α} {g : α → Exec β} (h : x.Binds)
    (k : ∀ a, (g a).Binds) : Exec.Binds (x >>= g) := by
  intro f f' hf'
  rcases Run.state?_bind hf' with hx | ⟨a, f₁, hx, hg⟩
  · exact h f f' hx
  · obtain ⟨hscope, hfields⟩ := h f f₁ hx
    obtain ⟨hscope', hfields'⟩ := k a f₁ f' hg
    exact ⟨hscope.trans hscope', hfields.trans hfields'⟩

theorem Action.binds_write (text : String) : (Action.write text).Binds := by
  intro m m' h
  rw [Action.write] at h
  split at h <;>
  · cases h
    exact .refl _

/-- Code that leaves the frame as it is. -/
theorem Exec.binds_of_eq {x : Exec α} (h : ∀ f f', (x f).state? = some f' → f' = f) :
    x.Binds := by
  intro f f' hf'
  rw [h f f' hf']
  exact ⟨.refl, .refl _⟩

theorem Exec.binds_ofLookup (lookup : Heap → Scope → Except EvalError α) :
    (Node.ofLookup lookup).Binds := by
  refine binds_of_eq fun f f' h => ?_
  rw [Node.state?_ofLookup] at h
  exact (Option.some.inj h).symm

theorem Action.Binds.ofAction {x : Action α} (h : x.Binds) : (Exec.ofAction x).Binds := by
  intro f f' hf'
  rw [Exec.state?_ofAction] at hf'
  obtain ⟨m', hm', rfl⟩ := Option.map_eq_some_iff.mp hf'
  exact ⟨.refl, h _ _ hm'⟩

theorem Exec.Binds.catchReturn {x : Exec Value} (h : x.Binds) :
    (Exec.catchReturn x).Binds := by
  intro f f' hf'
  rw [Exec.state?_catchReturn] at hf'
  exact h f f' hf'

/-- The variables of a call are given up in the end, fields are not. -/
theorem Exec.Binds.inScope {x : Exec α} (h : x.Binds) (scope : Scope) :
    (Exec.inScope scope x).Binds := by
  intro m m' hm'
  rw [Exec.state?_inScope] at hm'
  obtain ⟨f', hf', rfl⟩ := Option.map_eq_some_iff.mp hm'
  exact (h ⟨scope, m⟩ f' hf').2

end

theorem binds_congruence :
    CallCongruence (fun x _ => Action.Binds x) (fun _ _ x _ => Exec.Binds x) true where
  actionPure _ := by
    rintro m _ ⟨⟩
    exact .refl _
  actionBind h k := h.bind k
  actionFail _ := by
    rintro m _ ⟨⟩
    exact .refl _
  heap := by
    rintro m _ ⟨⟩
    exact .refl _
  allocate cls := by
    rintro m _ ⟨⟩
    exact m.heap.fieldsExtend_allocate cls
  setField a field v := by
    rintro m _ ⟨⟩
    exact m.heap.fieldsExtend_setField a field v
  write text := Action.binds_write text
  codePure _ := Exec.binds_of_eq <| by
    rintro f _ ⟨⟩
    rfl
  codeBind h k := h.bind k
  ofAction h := h.ofAction
  ofLookup _ := Exec.binds_ofLookup _
  bindName name v := by
    rintro f _ ⟨⟩
    exact ⟨.insert name v .refl, .refl _⟩
  returned _ := Exec.binds_of_eq <| by
    rintro f _ ⟨⟩
    rfl
  catchReturn h := h.catchReturn
  inScope scope h := h.inScope scope
  starve _ := by rintro m _ ⟨⟩

theorem Node.exec_binds (classes : ClassTable) (fuel : Nat) (n : Node) :
    (n.exec classes (.within classes fuel)).Binds := by
  have hd : (Dispatch.within classes fuel).Related (fun x _ => Action.Binds x)
      (Dispatch.within classes fuel) :=
    Dispatch.within_related binds_congruence (fun _ _ _ => rfl) (Nat.le_refl fuel)
  exact Node.exec_related binds_congruence.toCongruence hd true n rfl

/-! ## Names that are bound once -/

/-- No name is bound twice, neither among the variables nor among the fields of an
instance. -/
structure Frame.Distinct (frame : Frame) : Prop where
  scope : frame.scope.Distinct
  fields : ∀ a, (frame.machine.heap.object a).fields.Distinct

/-- A program starts with no name bound at all. -/
theorem Frame.distinct_start (sink : Sink) : Distinct ⟨∅, .start sink⟩ := by
  refine ⟨Scope.distinct_empty, fun a => ?_⟩
  rw [Heap.object_of_size_le (Nat.zero_le a)]
  exact Scope.distinct_empty

/-- Where no name is bound twice, no name is after a run, however it ends. -/
theorem Frame.distinct_of_exec {classes : ClassTable} {node : Node} {fuel : Nat}
    {frame after : Frame} (hframe : frame.Distinct)
    (h : (node.exec classes (.within classes fuel) frame).state? = some after) :
    after.Distinct := by
  obtain ⟨hscope, hfields⟩ := Node.exec_binds classes fuel node frame after h
  exact ⟨hscope.distinct hframe.scope, fun a => (hfields a).distinct (hframe.fields a)⟩

/-- So it is when the body of a method begins, whatever its parameters are called. -/
theorem Frame.distinct_of_call {machine : Machine}
    (hfields : ∀ a, (machine.heap.object a).fields.Distinct)
    (method : Method) (receiver : Value) (args : List Value) :
    Distinct ⟨method.frame receiver args, machine⟩ :=
  ⟨(Scope.extends_frame method receiver args).distinct Scope.distinct_empty, hfields⟩

/-! ## Frames -/

/-- What becomes of a frame: no instance, no field and no variable is gone, and no
instance has another class. -/
structure Frame.Grows (before after : Frame) : Prop where
  heap : before.machine.heap.Extends after.machine.heap
  fields : before.machine.heap.KeepsFields after.machine.heap
  names : before.scope.names ⊆ after.scope.names

section

variable {classes : ClassTable} {node : Node} {fuel : Nat} {frame : Frame}

theorem Node.exec_sound (hframe : frame.Sound) : (Invariant.sound classes).Runs
    (node.exec classes (.within classes fuel)) frame Heap.Allocated :=
  Node.exec_runs (Invariant.dispatches_sound fuel) node
    (Node.constants_of_forall Invariant.admits_sound node) ⟨hframe.heap, hframe.scope⟩

/-- In whichever sound frame whichever tree runs, and whether it yields a value, returns
one or fails: all instances in variables, in fields and in what comes out have been
allocated, and nothing that was there before is gone. Every creation that succeeds
yields an instance of its class that was not there when it began. Everything that goes
on in the run has a position, and creations at two positions, be one inside the other,
do not yield the same instance. -/
theorem store_stays_sound_and_grows (hframe : frame.Sound) :
    (∀ v after, node.exec classes (.within classes fuel) frame = .done (v, after) →
      after.Sound ∧ frame.Grows after ∧ after.machine.heap.Allocated v) ∧
    (∀ signal after,
      node.exec classes (.within classes fuel) frame = .failed (signal, after) →
      after.Sound ∧ frame.Grows after ∧
      ∀ v, signal = .returned v → after.machine.heap.Allocated v) ∧
    (∀ fuel start after cls args v,
      (Node.create cls args).exec classes (.within classes fuel) start =
        .done (v, after) →
      ∃ a, v = .inst a ∧ start.machine.heap.size ≤ a ∧ a < after.machine.heap.size ∧
        after.machine.heap.classOf a = cls) ∧
    (∀ B, (Activity.node fuel frame node).Contains classes B ↔
      ∃ p, (Activity.node fuel frame node).atPosition? classes p = some B) ∧
    ∀ p q B C a b,
      p ≠ q → (Activity.node fuel frame node).atPosition? classes p = some B →
      (Activity.node fuel frame node).atPosition? classes q = some C → B.Makes classes a →
      C.Makes classes b → a ≠ b := by
  have hsound : (Invariant.sound classes).Runs
      (node.exec classes (.within classes fuel)) frame Heap.Allocated :=
    Node.exec_sound hframe
  have hbinds := Node.exec_binds classes fuel node frame
  refine ⟨fun v after h => ?_, fun signal after h => ?_,
    fun fuel start after cls args v h => ?_, fun B => Activity.contains_iff_position,
    fun p q B C a b hne hB hC ha hb => ha.ne hB hC hne hb⟩
  · obtain ⟨hafter, hext, hv⟩ := hsound.done h
    obtain ⟨hscope, hfields⟩ := hbinds after (by rw [h]; rfl)
    exact ⟨⟨hafter.machine, hafter.scope⟩,
      ⟨hext, hfields.keepsFields, hscope.names_subset⟩, hv⟩
  · obtain ⟨hafter, hext, hreturned⟩ := hsound.failed h
    obtain ⟨hscope, hfields⟩ := hbinds after (by rw [h]; rfl)
    exact ⟨⟨hafter.machine, hafter.scope⟩,
      ⟨hext, hfields.keepsFields, hscope.names_subset⟩, hreturned⟩
  · obtain ⟨rfl, hext⟩ := Node.done_of_create h
    have hsize : start.machine.heap.size < after.machine.heap.size := by
      have h := hext.size_le
      rwa [Heap.size_allocate] at h
    exact ⟨_, rfl, Nat.le_refl _, hsize, hext.classOf_allocate⟩

end

/-- Boxes that hold something, and a class whose constructor puts the new instance into
a box and then fails. -/
def boxClasses : ClassTable := ⟨#[
  ⟨"Box", none, [⟨"__init__", ["inner"],
    .body (.block [.setField ["self"] "inner" (.path ["inner"])])⟩]⟩,
  ⟨"Label", none,
    [⟨"__init__", ["box"], .body (.block [.setField ["box"] "label" (.path ["self"]),
    .arith .add (.lit (.number 1)) .none])⟩]⟩]⟩

/-- The variable `b` holds an instance. -/
def boxFrame (b : Address) (objects : Array Object) : Frame :=
  ⟨⟨[("b", .inst b)]⟩, ⟨⟨objects⟩, .unlimited⟩⟩

/-- A box inside itself. -/
def boxInItself : Object := ⟨0, ⟨[("inner", .inst 0)]⟩⟩

/-- Puts a box into a box, and then a label onto it, which fails. -/
def boxNode : Node :=
  .block [.assign "b" (.create 0 [.create 0 [.none]]), .create 1 [.path ["b"]]]

theorem boxFrame_sound : (boxFrame 0 #[boxInItself]).Sound := by
  refine ⟨fun a name v hfield => ?_, fun name v hv => ?_⟩
  · match a with
    | 0 =>
      cases Scope.eq_of_get?_singleton hfield
      rintro a ⟨⟩
      decide
    | a + 1 =>
      exact absurd (Heap.lt_size_of_field? hfield) (by simp [boxFrame, Heap.size])
  · cases Scope.eq_of_get?_singleton hv
    rintro a ⟨⟩
    decide

/-- What `boxNode` leaves: the label is in the box, though its constructor has failed. -/
def boxFrameAfter : Frame :=
  boxFrame 1 #[boxInItself, ⟨0, ⟨[("inner", .inst 2), ("label", .inst 3)]⟩⟩,
    ⟨0, ⟨[("inner", .none)]⟩⟩, ⟨1, ∅⟩]

theorem store_stays_sound_and_grows_box :
    (boxFrame 0 #[boxInItself]).Sound ∧
    boxNode.exec boxClasses (.within boxClasses 1) (boxFrame 0 #[boxInItself]) =
      .failed (.error (.binaryMismatch (.arith .add) "Number" "None"), boxFrameAfter) ∧
    boxFrameAfter.Sound ∧ (boxFrame 0 #[boxInItself]).Grows boxFrameAfter ∧
    ∃ B C, (Activity.node 1 (boxFrame 0 #[boxInItself]) boxNode).atPosition? boxClasses
      [0, 0, 0] = some B ∧
      (Activity.node 1 (boxFrame 0 #[boxInItself]) boxNode).atPosition? boxClasses
        [0, 0, 0, 0, 0] = some C ∧
      B.Makes boxClasses 1 ∧ C.Makes boxClasses 2 ∧ (1 : Address) ≠ 2 := by
  have hexec :
      boxNode.exec boxClasses (.within boxClasses 1) (boxFrame 0 #[boxInItself]) =
      .failed (.error (.binaryMismatch (.arith .add) "Number" "None"),
        boxFrameAfter) := by decide +kernel
  have houter : (Node.create 0 [.create 0 [.none]]).exec boxClasses (.within boxClasses 1)
      (boxFrame 0 #[boxInItself]) =
      .done (.inst 1, boxFrame 0 #[boxInItself, ⟨0, ⟨[("inner", .inst 2)]⟩⟩,
        ⟨0, ⟨[("inner", .none)]⟩⟩]) := by
    decide +kernel
  have hinner : (Node.create 0 [.none]).exec boxClasses (.within boxClasses 1)
      (boxFrame 0 #[boxInItself, ⟨0, ∅⟩]) =
      .done (.inst 2, boxFrame 0 #[boxInItself, ⟨0, ∅⟩, ⟨0, ⟨[("inner", .none)]⟩⟩]) := by
    decide +kernel
  obtain ⟨-, hfailed, -, -, hne⟩ :=
    @store_stays_sound_and_grows boxClasses boxNode 1 _ boxFrame_sound
  obtain ⟨hsound, hgrows, -⟩ := hfailed _ _ hexec
  exact ⟨boxFrame_sound, hexec, hsound, hgrows, _, _, rfl, rfl, .intro houter,
    .intro hinner, hne [0, 0, 0] [0, 0, 0, 0, 0] _ _ 1 2 (by decide) rfl rfl
      (.intro houter) (.intro hinner)⟩

end Mint
