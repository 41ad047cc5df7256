import Mint.Eval.Fuel
import Mint.Proofs.Calls
import Mint.Proofs.MissingMethods

/-!
# Rendering

The text of an instance with a method `__str__` is the text of what that method returns,
which may be an instance in turn. So rendering goes from value to value, each call in
the state that the one before has left (`StrStep`). It is done when a value comes up
that has no such method, and nothing makes sure that one does: an instance may return
itself.

If all calls of `__str__` return, that is all there is to say
(`rendering_ends_with_its_steps`). Either the steps end and the text is that of the last
value, or rendering never comes back.
-/

namespace Mint

/-! ## The steps of rendering -/

/-- A value to be rendered in a state, and the value that its method `__str__` returns,
in the state that the call leaves. -/
def StrStep (classes : ClassTable) (before after : Value × Machine) : Prop :=
  before.1.understands classes before.2.heap Special.str 0 = true ∧
    ∃ fuel, callMethod classes fuel before.1 Special.str [] before.2 = .done after

/-- The steps of rendering lead to a value that no further step starts from. -/
structure Settles (classes : ClassTable) (before after : Value × Machine) : Prop where
  steps : Relation.ReflTransGen (StrStep classes) before after
  ended : after.1.understands classes after.2.heap Special.str 0 = false

/-- Wherever instances have been allocated before they are referred to, every call of a
method `__str__` without arguments returns a value, with output to any sink of a
kind. -/
def ClassTable.StrReturns (classes : ClassTable) (sinks : Sink → Prop) : Prop :=
  ∀ (m : Machine) (a : Address), m.heap.Sound → sinks m.sink → a < m.heap.size →
    classes.hasMethod (m.heap.classOf a) Special.str 0 = true →
      ∃ fuel w m', callMethod classes fuel (.inst a) Special.str [] m = .done (w, m')

section

variable {classes : ClassTable} {fuel more : Nat} {v w : Value} {m m' : Machine}

theorem renderValue_of_not_understands (fuel : Nat)
    (h : v.understands classes m.heap Special.str 0 = false) :
    renderValue classes fuel v m = .done (v.plainText classes m.heap, m) := by
  cases fuel with
  | zero =>
    rw [renderValue, Action.heap_bind, h, if_neg Bool.false_ne_true, Run.pure_apply]
  | succ =>
    rw [renderValue, Action.heap_bind, h, if_neg Bool.false_ne_true, Run.pure_apply]

theorem renderValue_zero (h : v.understands classes m.heap Special.str 0 = true) :
    renderValue classes 0 v m = .starved := by
  rw [renderValue, Action.heap_bind, if_pos h, Run.starve_apply]

theorem renderValue_succ (fuel : Nat)
    (h : v.understands classes m.heap Special.str 0 = true) :
    renderValue classes (fuel + 1) v m =
      (callMethod classes fuel v Special.str [] >>= renderValue classes fuel) m := by
  rw [renderValue, Action.heap_bind, if_pos h]

theorem callMethod_done_mono {name : String} {args : List Value} {r : Value × Machine}
    (hle : fuel ≤ more) (h : callMethod classes fuel v name args m = .done r) :
    callMethod classes more v name args m = .done r :=
  ((Dispatch.within_refines classes hle).call v name args).done h

/-- A call that returns with some fuel does so with any fuel that it does not run out
of. -/
theorem callMethod_starved_or_done {name : String} {args : List Value}
    {r : Value × Machine} (h : callMethod classes fuel v name args m = .done r)
    (other : Nat) :
    callMethod classes other v name args m = .starved ∨
    callMethod classes other v name args m = .done r := by
  rcases Nat.le_total other fuel with hle | hle
  · rcases (Dispatch.within_refines classes hle).call v name args m with hstarved | heq
    · exact .inl hstarved
    · exact .inr (heq.trans h)
  · exact .inr (callMethod_done_mono hle h)

/-- Once the steps have ended, the text is that of the last value. The induction is on
the steps, the first one apart. -/
theorem Settles.exists_fuel (h : Settles classes (v, m) (w, m')) :
    ∃ enough, ∀ fuel, enough ≤ fuel →
      renderValue classes fuel v m = .done (w.plainText classes m'.heap, m') := by
  obtain ⟨hsteps, hended⟩ := h
  generalize hbefore : (v, m) = before at hsteps
  induction hsteps using Relation.ReflTransGen.head_induction_on generalizing v m with
  | refl =>
    cases hbefore
    exact ⟨0, fun fuel _ => renderValue_of_not_understands fuel hended⟩
  | head hstep _ ih =>
    subst hbefore
    obtain ⟨hunderstands, depth, hcall⟩ := hstep
    obtain ⟨enough, hrest⟩ := ih rfl
    refine ⟨max depth enough + 1, fun fuel hfuel => ?_⟩
    obtain ⟨fuel, rfl⟩ : ∃ k, fuel = k + 1 := ⟨fuel - 1, by omega⟩
    rw [renderValue_succ fuel hunderstands,
      Run.bind_done (callMethod_done_mono (by omega) hcall)]
    exact hrest fuel (by omega)

end

/-! ## Rendering that does not end -/

/-- Instances are allocated before they are referred to, and the output goes to a sink
of a kind. -/
def Invariant.soundOn (classes : ClassTable) {sinks : Sink → Prop}
    (hsinks : ∀ sink bytes, sinks sink → sinks (sink.write bytes).2) :
    Invariant classes where
  __ := Invariant.sound classes
  machine m := m.heap.Sound ∧ sinks m.sink
  plainText _ _ := by rintro _ ⟨⟩
  field h _ hfield := h.1 _ _ _ hfield
  allocate cls h :=
    have hallocate := (Invariant.sound classes).allocate cls h.1
    ⟨⟨hallocate.1, h.2⟩, hallocate.2⟩
  setField name h _ hv := ⟨h.1.setField hv _ name, h.2⟩
  write h _ := ⟨h.1, hsinks _ _ h.2⟩

section

variable {classes : ClassTable} {sinks : Sink → Prop} {v w : Value} {m m' : Machine}

/-- What a call of `__str__` returns has been allocated, and its state is one in which
such calls return. -/
theorem keeps_of_callMethod
    (hsinks : ∀ sink bytes, sinks sink → sinks (sink.write bytes).2) {fuel : Nat}
    (hheap : m.heap.Sound) (hsink : sinks m.sink) (hv : m.heap.Allocated v)
    (h : callMethod classes fuel v Special.str [] m = .done (w, m')) :
    m'.heap.Sound ∧ sinks m'.sink ∧ m'.heap.Allocated w := by
  have hclasses : (Invariant.soundOn classes hsinks).Classes :=
    Invariant.classes_of_admits (@Invariant.admits_sound classes)
  obtain ⟨⟨hheap', hsink'⟩, -, hw⟩ :=
    ((Invariant.dispatches_within hclasses fuel).call Special.str
      ⟨hheap, hsink⟩ hv fun _ harg => absurd harg List.not_mem_nil).done h
  exact ⟨hheap', hsink', hw⟩

/-- If the calls return and the steps do not end, no fuel is enough. The induction is on
the fuel, for each step takes some of it. -/
theorem ClassTable.StrReturns.renderValue_starved (hstr : classes.StrReturns sinks)
    (hsinks : ∀ sink bytes, sinks sink → sinks (sink.write bytes).2)
    (hheap : m.heap.Sound) (hsink : sinks m.sink) (hv : m.heap.Allocated v)
    (h : ¬∃ after, Settles classes (v, m) after) (fuel : Nat) :
    renderValue classes fuel v m = .starved := by
  induction fuel generalizing v m with
  | zero =>
    refine renderValue_zero (Bool.of_not_eq_false fun hended => ?_)
    exact h ⟨(v, m), .refl, hended⟩
  | succ fuel ih =>
    have hunderstands : v.understands classes m.heap Special.str 0 = true :=
      Bool.of_not_eq_false fun hended => h ⟨(v, m), .refl, hended⟩
    rw [renderValue_succ fuel hunderstands]
    -- only instances have methods
    cases v with
    | inst a =>
      obtain ⟨depth, w, m', hcall⟩ := hstr m a hheap hsink (hv a rfl) hunderstands
      rcases callMethod_starved_or_done hcall fuel with hstarved | hdone
      · exact Run.bind_starved hstarved
      · rw [Run.bind_done hdone]
        obtain ⟨hheap', hsink', hw⟩ := keeps_of_callMethod hsinks hheap hsink hv hdone
        refine ih hheap' hsink' hw fun ⟨after, hsettles⟩ => h ⟨after, ?_, hsettles.ended⟩
        exact .head ⟨hunderstands, fuel, hdone⟩ hsettles.steps
    | _ => cases hunderstands

/-- Conversion to text is rendering. -/
theorem Node.exec_str {d : Dispatch} {operand : Node} {frame f : Frame}
    (h : operand.exec classes d frame = .done (v, f)) :
    (Node.str operand).exec classes d frame =
      (Value.text <$> Exec.ofAction (d.render v)) f := by
  rw [Node.exec, Run.bind_done h]
  rfl

/-- Printing is rendering and then writing. -/
theorem Node.exec_print {d : Dispatch} {operand : Node} {frame f : Frame}
    (h : operand.exec classes d frame = .done (v, f)) :
    (Node.print [operand]).exec classes d frame = (do
      let text ← Exec.ofAction (d.render v)
      Exec.ofAction (Action.write text)
      Exec.ofAction (Action.write "\n")
      return .none : Exec Value) f := by
  rw [Node.exec, Node.printAll, bind_assoc, Run.bind_done h]
  simp only [Node.printAll, Bool.false_eq_true, if_false, bind_assoc]

/-- If every call of `__str__` returns, then rendering a value follows the steps of
`StrStep`. Where these end it returns the text of the last value, given enough fuel, and
where they do not end no fuel is enough. Conversion to text and printing of the value do
what rendering does. -/
theorem rendering_ends_with_its_steps
    (hsinks : ∀ sink bytes, sinks sink → sinks (sink.write bytes).2)
    (hstr : classes.StrReturns sinks) (hheap : m.heap.Sound) (hsink : sinks m.sink)
    (hv : m.heap.Allocated v) :
    (∀ w m', Settles classes (v, m) (w, m') → ∃ enough, ∀ fuel, enough ≤ fuel →
      renderValue classes fuel v m = .done (w.plainText classes m'.heap, m')) ∧
    ((¬∃ after, Settles classes (v, m) after) →
      ∀ fuel, renderValue classes fuel v m = .starved) ∧
    ∀ fuel (operand : Node) frame scope,
      operand.exec classes (.within classes fuel) frame = .done (v, ⟨scope, m⟩) →
      (Node.str operand).exec classes (.within classes fuel) frame =
        (Value.text <$> Exec.ofAction (renderValue classes fuel v)) ⟨scope, m⟩ ∧
      (Node.print [operand]).exec classes (.within classes fuel) frame = (do
        let text ← Exec.ofAction (renderValue classes fuel v)
        Exec.ofAction (Action.write text)
        Exec.ofAction (Action.write "\n")
        return .none : Exec Value) ⟨scope, m⟩ := by
  refine ⟨fun w m' h => h.exists_fuel, hstr.renderValue_starved hsinks hheap hsink hv, ?_⟩
  intro fuel operand frame scope hoperand
  exact ⟨Node.exec_str hoperand, Node.exec_print hoperand⟩

end

/-! ## A label that is shown as its name -/

/-- Only classes of the table have methods. -/
theorem ClassTable.lt_size_of_hasMethod {classes : ClassTable} {i : ClassId}
    {name : String} {arity : Nat} (h : classes.hasMethod i name arity = true) :
    i < classes.size := by
  refine Nat.lt_of_not_le fun hle => ?_
  rw [hasMethod, method?, lineage, lineageWithin, get_of_size_le hle] at h
  cases h

/-- Names are shown as `a`, and labels as a name that is made for the purpose. -/
def labelClasses : ClassTable := ⟨#[
  ⟨"Name", none, [⟨"__str__", [], .body (.block [.ret (.lit (.text "a"))])⟩]⟩,
  ⟨"Label", none, [⟨"__str__", [], .body (.block [.ret (.create 0 [])])⟩]⟩]⟩

theorem strReturns_labelClasses :
    labelClasses.StrReturns fun sink => sink.capacity = none := by
  intro m a _ _ _ h
  have hcls : m.heap.classOf a < 2 := ClassTable.lt_size_of_hasMethod h
  rcases Nat.lt_succ_iff_lt_or_eq.mp hcls with hcls | hcls
  · have hmethod : labelClasses.methodTaking? (m.heap.classOf a) Special.str
        ([] : List Value).length =
        some ⟨"__str__", [], .body (.block [.ret (.lit (.text "a"))])⟩ := by
      rw [Nat.lt_one_iff.mp hcls]
      decide
    exact ⟨1, .text "a", m, callMethod_of_methodTaking? hmethod 0⟩
  · have hmethod : labelClasses.methodTaking? (m.heap.classOf a) Special.str
        ([] : List Value).length =
        some ⟨"__str__", [], .body (.block [.ret (.create 0 [])])⟩ := by
      rw [hcls]
      decide
    exact ⟨1, .inst m.heap.size, ⟨m.heap.allocate 0, m.sink⟩,
      callMethod_of_methodTaking? hmethod 0⟩

theorem rendering_ends_with_its_steps_label :
    labelClasses.StrReturns (fun sink => sink.capacity = none) ∧
    Settles labelClasses (.inst 0, ⟨Heap.allocate ∅ 1, .unlimited⟩)
      (.text "a", ⟨(Heap.allocate ∅ 1).allocate 0, .unlimited⟩) ∧
    ∃ enough, ∀ fuel, enough ≤ fuel →
      renderValue labelClasses fuel (.inst 0) ⟨Heap.allocate ∅ 1, .unlimited⟩ =
      .done ("a", ⟨(Heap.allocate ∅ 1).allocate 0, .unlimited⟩) := by
  have hsettles : Settles labelClasses (.inst 0, ⟨Heap.allocate ∅ 1, .unlimited⟩)
      (.text "a", ⟨(Heap.allocate ∅ 1).allocate 0, .unlimited⟩) := by
    refine ⟨.head (b := (.inst 1, ⟨(Heap.allocate ∅ 1).allocate 0, .unlimited⟩))
      ⟨by decide, 1, by decide +kernel⟩ ?_, rfl⟩
    exact .single ⟨by decide, 1, by decide +kernel⟩
  have hv : (Heap.allocate ∅ 1).Allocated (.inst 0) := by
    rintro a ⟨⟩
    decide
  obtain ⟨hends, -⟩ :=
    rendering_ends_with_its_steps (fun _ _ h => h) strReturns_labelClasses
      ((Frame.sound_start .unlimited).heap.allocate 1) (m :=
        ⟨Heap.allocate ∅ 1, .unlimited⟩) rfl hv
  exact ⟨strReturns_labelClasses, hsettles, hends _ _ hsettles⟩

/-! ## An instance that is shown as itself -/

theorem Exec.ofAction_starved {α : Type} {x : Action α} {f : Frame}
    (h : x f.machine = .starved) :
    Exec.ofAction x f = .starved := by
  rw [Exec.ofAction, h]

/-- A class whose instances return themselves when they are asked for their text, and
one of them printed. -/
def selfRendering : Source :=
  .ofString "class A:\n  def __str__(self):\n    return self\nprint A()\n"

/-- The method that returns the receiver. -/
def selfStr : Method := ⟨"__str__", [], .body (.block [.ret (.path ["self"])])⟩

/-- The class of `selfRendering`. -/
def selfClasses : ClassTable := ⟨#[⟨"A", none, [selfStr]⟩]⟩

theorem callMethod_selfStr {m : Machine} {a : Address}
    (h : selfClasses.hasMethod (m.heap.classOf a) Special.str 0 = true) (fuel : Nat) :
    callMethod selfClasses (fuel + 1) (.inst a) Special.str [] m =
      .done (.inst a, m) := by
  have hcls : m.heap.classOf a < 1 := ClassTable.lt_size_of_hasMethod h
  have hmethod :
      selfClasses.methodTaking? (m.heap.classOf a) Special.str ([] : List Value).length =
      some selfStr := by
    rw [Nat.lt_one_iff.mp hcls]
    decide
  exact callMethod_of_methodTaking? hmethod fuel

theorem renderValue_selfStr {m : Machine} {a : Address}
    (h : selfClasses.hasMethod (m.heap.classOf a) Special.str 0 = true) (fuel : Nat) :
    renderValue selfClasses fuel (.inst a) m = .starved := by
  have hunderstands :
    (Value.inst a).understands selfClasses m.heap Special.str 0 = true := h
  induction fuel with
  | zero => exact renderValue_zero hunderstands
  | succ fuel ih =>
    rw [renderValue_succ fuel hunderstands]
    rcases callMethod_starved_or_done (callMethod_selfStr h 0) fuel with hstarved | hdone
    · exact Run.bind_starved hstarved
    · rw [Run.bind_done hdone, ih]

/-- Every call of `__str__` returns, on any instance in any state, and yet the one
instance of the program is never rendered. -/
theorem rendering_may_never_end :
    Program.parse selfRendering =
      .done ⟨[.define 0, .print [.create 0 []]], selfClasses⟩ ∧
    (∀ (m : Machine) (a : Address),
      selfClasses.hasMethod (m.heap.classOf a) Special.str 0 = true →
      callMethod selfClasses 1 (.inst a) Special.str [] m = .done (.inst a, m)) ∧
    (∀ fuel,
      renderValue selfClasses fuel (.inst 0) ⟨Heap.allocate ∅ 0, .unlimited⟩ = .starved) ∧
    ∀ fuel, Program.run ⟨[.define 0, .print [.create 0 []]],
      selfClasses⟩ fuel (.start .unlimited) = .starved := by
  have hrender :=
    renderValue_selfStr (m := ⟨Heap.allocate ∅ 0, .unlimited⟩) (a := 0) (by decide)
  refine ⟨by decide +kernel, fun m a h => callMethod_selfStr h 0, hrender, fun fuel => ?_⟩
  -- the second statement makes the instance and renders it
  have hcreate : (Node.create 0 []).exec selfClasses (.within selfClasses fuel)
      ⟨(∅ : Scope).insert "A" (.cls 0), .start .unlimited⟩ =
      .done (.inst 0,
        ⟨(∅ : Scope).insert "A" (.cls 0), ⟨Heap.allocate ∅ 0, .unlimited⟩⟩) := by
    rw [Node.exec]
    rfl
  have hprint : (Node.print [.create 0 []]).exec selfClasses (.within selfClasses fuel)
      ⟨(∅ : Scope).insert "A" (.cls 0), .start .unlimited⟩ = .starved := by
    rw [Node.exec_print hcreate]
    exact Run.bind_starved (Exec.ofAction_starved (hrender fuel))
  have hdefine :
      (Node.define 0).exec selfClasses (.within selfClasses fuel) ⟨∅, .start .unlimited⟩ =
      .done (.cls 0, ⟨(∅ : Scope).insert "A" (.cls 0), .start .unlimited⟩) := by
    rw [Node.exec]
    rfl
  have hbody : (Node.block [.define 0, .print [.create 0 []]]).exec selfClasses
      (.within selfClasses fuel) ⟨∅, .start .unlimited⟩ = .starved := by
    rw [Node.exec, Node.execAll, bind_assoc, Run.bind_done hdefine, Node.execAll,
      bind_assoc]
    exact Run.bind_starved hprint
  exact Run.bind_starved (by rw [Exec.inScope, Program.body, hbody])

end Mint
