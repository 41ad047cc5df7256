import Mint.Proofs.Eval.Invariant

/-!
# What code does not reach it does not change

Code gets at an instance through a variable and then through fields, in any number of
steps (`Heap.Reaches`). The heap is shared and may be cyclic, and while code runs the
reachable instances change: fields are set, and methods run with variables of their own.
What stays true throughout is that nothing in sight leads to an instance that was out of
reach at the start, and that those instances are as they were (`Apart`). That is an
invariant of all code (`Invariant.apart`), also of code that fails.
-/

namespace Mint

namespace Heap

/-- Fields lead from the value to the instance at an address, in any number of steps. -/
inductive Reaches (heap : Heap) (v : Value) : Address → Prop where
  | here {a} (h : v = .inst a) : Reaches heap v a
  | field {a b name} (h : Reaches heap v a)
    (hfield : heap.field? a name = some (.inst b)) : Reaches heap v b

variable {heap : Heap} {v : Value} {a b : Address} {name : String}

/-- What is closed under fields and holds the value holds all that can be reached. -/
theorem Reaches.mem_of_closed (inside : Address → Prop) (h : heap.Reaches v a)
    (hv : ∀ b, v = .inst b → inside b)
    (hclosed : ∀ a name b, inside a → heap.field? a name = some (.inst b) → inside b) :
    inside a := by
  induction h with
  | here h => exact hv _ h
  | field _ hfield ih => exact hclosed _ _ _ ih hfield

end Heap

/-- A variable and then fields lead to the instance at an address. -/
def Frame.Reaches (f : Frame) (a : Address) : Prop :=
  ∃ name v, f.scope.get? name = some v ∧ f.machine.heap.Reaches v a

/-- The instance at an address is there as it was before. -/
structure Heap.Keeps (before after : Heap) (a : Address) : Prop where
  lt_size : a < after.size
  object_eq : after.object a = before.object a

/-- The instance at an address is there, and no root leads to it. -/
structure Heap.Unreached (heap : Heap) (roots : Value → Prop) (a : Address) : Prop where
  allocated : a < heap.size
  not_reaches : ∀ v, roots v → ¬heap.Reaches v a

/-! ## Instances out of reach -/

/-- The instances in `out` are as they were before, and no instance outside of it has
one of them in a field. -/
structure Apart (out : Address → Prop) (before heap : Heap) : Prop where
  keeps : ∀ a, out a → before.Keeps heap a
  closed : ∀ a name b, ¬out a → heap.field? a name = some (.inst b) → ¬out b

namespace Apart

variable {out : Address → Prop} {before heap : Heap} {v : Value} {a : Address}

/-- Instances that no root reaches are apart. -/
theorem of_unreached (heap : Heap) (roots : Value → Prop) :
    Apart (heap.Unreached roots) heap heap := by
  refine ⟨fun a ha => ⟨ha.allocated, rfl⟩,
    fun a name b ha hfield hb => ha ⟨Heap.lt_size_of_field? hfield, ?_⟩⟩
  intro v hv hreaches
  exact hb.not_reaches v hv (hreaches.field hfield)

/-- From outside no instance is reached that is apart. -/
theorem not_reaches (h : Apart out before heap) (hv : ∀ b, v = .inst b → ¬out b)
    (ha : out a) :
    ¬heap.Reaches v a :=
  fun hreaches => hreaches.mem_of_closed (fun b => ¬out b) hv h.closed ha

theorem allocate (h : Apart out before heap) (cls : ClassId) :
    Apart out before (heap.allocate cls) := by
  refine ⟨fun a ha => ?_,
    fun a name b ha hfield => h.closed a name b ha (Heap.field?_allocate hfield)⟩
  have hlt := (h.keeps a ha).lt_size
  refine ⟨by rw [Heap.size_allocate]; exact Nat.lt_succ_of_lt hlt, ?_⟩
  rw [Heap.object_allocate_of_lt cls hlt, (h.keeps a ha).object_eq]

theorem setField (h : Apart out before heap) (ha : ¬out a)
    (hv : ∀ b, v = .inst b → ¬out b) (name : String) :
    Apart out before (heap.setField a name v) := by
  refine ⟨fun b hb => ⟨by rw [Heap.size_setField]; exact (h.keeps b hb).lt_size, ?_⟩,
    fun b name c hb hfield => ?_⟩
  · by_cases hlt : a < heap.size
    · have hne : b ≠ a := by
        rintro rfl
        exact ha hb
      rw [Heap.object_setField hlt, if_neg hne, (h.keeps b hb).object_eq]
    · rw [Heap.setField_of_size_le (Nat.not_lt.mp hlt), (h.keeps b hb).object_eq]
  · rcases Heap.field?_setField hfield with ⟨-, hc⟩ | hfield
    · exact hv c hc.symm
    · exact h.closed b name c hb hfield

end Apart

/-- No value in sight is an instance of `out`, and the instances of `out` are apart. -/
def Invariant.apart (classes : ClassTable) (out : Address → Prop) (before : Heap) :
    Invariant classes where
  value _ v := ∀ a, v = .inst a → ¬out a
  machine m := Apart out before m.heap
  later _ h := h
  none := by rintro _ _ ⟨⟩
  truth := by rintro _ _ _ ⟨⟩
  number := by rintro _ _ _ ⟨⟩
  cls := by rintro _ _ _ ⟨⟩
  space := by rintro _ _ ⟨⟩
  lineEnd := by rintro _ _ ⟨⟩
  append _ _ := by rintro _ ⟨⟩
  plainText _ _ := by rintro _ ⟨⟩
  field h hv hfield := by
    rintro b rfl
    exact h.closed _ _ b (hv _ rfl) hfield
  allocate cls h := by
    refine ⟨h.allocate cls, ?_⟩
    rintro a ⟨⟩ ha
    exact absurd (h.keeps _ ha).lt_size (Nat.lt_irrefl _)
  setField name h ha hv := h.setField (ha _ rfl) hv name
  write h _ := h

section

variable {classes : ClassTable} {out : Address → Prop} {before : Heap} {a : Address}

theorem Invariant.admits_apart (constant : Literal) :
    (apart classes out before).Admits constant := by
  intro _ a ha
  cases constant <;> cases ha

theorem Invariant.dispatches_apart (fuel : Nat) :
    (apart classes out before).Dispatches (Dispatch.within classes fuel) :=
  dispatches_within (classes_of_admits admits_apart) fuel

/-- A root is no instance out of reach. -/
theorem Invariant.value_apart_of_root {roots : Value → Prop} {v : Value} (hv : roots v)
    (heap : Heap) :
    (apart classes (before.Unreached roots) before).value heap v := by
  rintro a rfl ha
  exact ha.not_reaches _ hv (.here rfl)

theorem Invariant.Holds.not_reaches {f : Frame} (h : (apart classes out before).Holds f)
    (ha : out a) :
    ¬f.Reaches a := by
  rintro ⟨name, v, hv, hreaches⟩
  exact h.machine.not_reaches (h.scope name v hv) ha hreaches

end

/-! ## Code and calls -/

/-- Whatever tree runs in whatever frame, and however it ends, an instance that the
variables do not reach is left as it is, and neither the variables nor a value that
comes out reach it afterwards. A call leaves alone what neither the receiver nor an
argument reaches. -/
theorem changes_only_what_it_reaches :
    (∀ {classes : ClassTable} {node : Node} {fuel : Nat} {frame : Frame} {a : Address},
      a < frame.machine.heap.size → ¬frame.Reaches a →
      (∀ v frame',
        node.exec classes (Dispatch.within classes fuel) frame = .done (v, frame') →
        frame.machine.heap.Keeps frame'.machine.heap a ∧ ¬frame'.Reaches a ∧
        ¬frame'.machine.heap.Reaches v a) ∧
      ∀ signal frame', node.exec classes (Dispatch.within classes fuel) frame =
        .failed (signal, frame') →
        frame.machine.heap.Keeps frame'.machine.heap a ∧ ¬frame'.Reaches a ∧
          ∀ v, signal = .returned v → ¬frame'.machine.heap.Reaches v a) ∧
    ∀ {classes : ClassTable} {fuel : Nat} {receiver : Value} {method : String}
      {args : List Value} {machine : Machine} {a : Address},
      a < machine.heap.size → ¬machine.heap.Reaches receiver a →
      (∀ arg ∈ args, ¬machine.heap.Reaches arg a) →
      (∀ v machine',
        callMethod classes fuel receiver method args machine = .done (v, machine') →
        machine.heap.Keeps machine'.heap a ∧ ¬machine'.heap.Reaches v a) ∧
      ∀ e machine',
        callMethod classes fuel receiver method args machine = .failed (e, machine') →
        machine.heap.Keeps machine'.heap a := by
  constructor
  · intro classes node fuel frame a ha hunreached
    let roots : Value → Prop := fun v => ∃ name, frame.scope.get? name = some v
    let I :=
      Invariant.apart classes (frame.machine.heap.Unreached roots) frame.machine.heap
    have hout : frame.machine.heap.Unreached roots a :=
      ⟨ha, fun v ⟨name, hv⟩ hreaches => hunreached ⟨name, v, hv, hreaches⟩⟩
    have hholds : I.Holds frame :=
      ⟨.of_unreached _ _, fun name v hv => Invariant.value_apart_of_root ⟨name, hv⟩ _⟩
    have hrun : I.Runs (node.exec classes (Dispatch.within classes fuel)) frame I.value :=
      Node.exec_runs (Invariant.dispatches_apart fuel) node
        (Node.constants_of_forall Invariant.admits_apart node) hholds
    refine ⟨fun v frame' h => ?_, fun signal frame' h => ?_⟩
    · obtain ⟨hframe', -, hv⟩ := hrun.done h
      exact ⟨hframe'.machine.keeps a hout, hframe'.not_reaches hout,
        hframe'.machine.not_reaches hv hout⟩
    · obtain ⟨hframe', -, hv⟩ := hrun.failed h
      exact ⟨hframe'.machine.keeps a hout, hframe'.not_reaches hout, fun v hsignal =>
        hframe'.machine.not_reaches (hv v hsignal) hout⟩
  · intro classes fuel receiver method args machine a ha hreceiver hargs
    let roots : Value → Prop := fun v => v = receiver ∨ v ∈ args
    let I := Invariant.apart classes (machine.heap.Unreached roots) machine.heap
    have hout : machine.heap.Unreached roots a := by
      refine ⟨ha, ?_⟩
      rintro v (rfl | hv)
      · exact hreceiver
      · exact hargs v hv
    have hcall : I.Acts (callMethod classes fuel receiver method args) machine I.value :=
      (Invariant.dispatches_apart fuel).call method (.of_unreached _ _)
        (Invariant.value_apart_of_root (.inl rfl) _) fun arg harg =>
          Invariant.value_apart_of_root (.inr harg) _
    refine ⟨fun v machine' h => ?_, fun e machine' h => ?_⟩
    · obtain ⟨hmachine', -, hv⟩ := hcall.done h
      exact ⟨hmachine'.keeps a hout, hmachine'.not_reaches hv hout⟩
    · obtain ⟨hmachine', -⟩ := hcall.failed h
      exact hmachine'.keeps a hout

/-- A class whose method stores its argument and then reads a variable that is not
there. -/
def linkTable : ClassTable :=
  ⟨#[⟨"Cell", none, [⟨"link", ["other"], .body (.block [
    .setField ["self"] "next" (.path ["other"]), .path ["missing"]])⟩]⟩]⟩

/-- Two instances that refer to each other, and one that nothing refers to. -/
def linkHeap : Heap := ⟨#[⟨0, ⟨[("next", .inst 1)]⟩⟩, ⟨0, ⟨[("next", .inst 0)]⟩⟩,
    ⟨0, ⟨[("kept", .number 5)]⟩⟩]⟩

def linkFrame : Frame := ⟨⟨[("x", .inst 0)]⟩, ⟨linkHeap, .unlimited⟩⟩

/-- The heap after `x.link(x)`. -/
def linkedHeap : Heap := ⟨#[⟨0, ⟨[("next", .inst 0)]⟩⟩, ⟨0, ⟨[("next", .inst 0)]⟩⟩,
    ⟨0, ⟨[("kept", .number 5)]⟩⟩]⟩

/-- From the first instance one does not get to the third. -/
theorem not_reaches_linkHeap : ¬linkHeap.Reaches (.inst 0) 2 := by
  intro h
  have hlt : 2 < 2 := by
    refine h.mem_of_closed (· < 2) (by rintro b ⟨⟩; decide) fun a name b ha hfield => ?_
    match a, ha with
    | 0, _ =>
      cases Scope.eq_of_get?_singleton hfield
      decide
    | 1, _ =>
      cases Scope.eq_of_get?_singleton hfield
      decide
  exact Nat.lt_irrefl 2 hlt

theorem changes_only_what_it_reaches_link :
    2 < linkHeap.size ∧ ¬linkFrame.Reaches 2 ∧ ¬linkHeap.Reaches (.inst 0) 2 ∧
    (Node.call (.path ["x"]) "link" [.path ["x"]]).exec linkTable
      (Dispatch.within linkTable 1) linkFrame =
      .failed (.error (.undefined ["missing"]),
        ⟨linkFrame.scope, linkedHeap, .unlimited⟩) ∧
    ¬Frame.Reaches ⟨linkFrame.scope, linkedHeap, .unlimited⟩ 2 ∧
    callMethod linkTable 1 (.inst 0) "link" [.inst 0] linkFrame.machine =
      .failed (.undefined ["missing"], ⟨linkedHeap, .unlimited⟩) ∧
    linkHeap.Keeps linkedHeap 2 := by
  have hallocated : 2 < linkFrame.machine.heap.size := by decide
  have hunreached : ¬linkFrame.Reaches 2 := by
    rintro ⟨name, v, hv, hreaches⟩
    cases Scope.eq_of_get?_singleton hv
    exact not_reaches_linkHeap hreaches
  have hexec : (Node.call (.path ["x"]) "link" [.path ["x"]]).exec linkTable
      (Dispatch.within linkTable 1) linkFrame =
      .failed (.error (.undefined ["missing"]),
        ⟨linkFrame.scope, linkedHeap, .unlimited⟩) := by decide +kernel
  have hcall : callMethod linkTable 1 (.inst 0) "link" [.inst 0] linkFrame.machine =
      .failed (.undefined ["missing"], ⟨linkedHeap, .unlimited⟩) := by decide +kernel
  obtain ⟨-, hfailed⟩ := changes_only_what_it_reaches.1 hallocated hunreached
  obtain ⟨-, hcallFailed⟩ :=
    changes_only_what_it_reaches.2 hallocated not_reaches_linkHeap
      (List.forall_mem_singleton.mpr not_reaches_linkHeap)
  obtain ⟨-, hafter, -⟩ := hfailed _ _ hexec
  exact ⟨hallocated, hunreached, not_reaches_linkHeap, hexec, hafter, hcall,
    hcallFailed _ _ hcall⟩

end Mint
