import Mint.Proofs.Eval.Activity

/-!
# Which calls find no method

The evaluator looks for a method before it calls one, and between the two it may run any
code, for the arguments are evaluated after the look. That code does not matter: an
instance keeps its class (`Heap.Extends`), so the call finds what the look has found.
There is one exception. Two instances are compared for equality without a look, and the
call of `__eq__` is the only one that can find nothing.

All this is said of frames in which every instance in sight has been allocated
(`Frame.Sound`). Other frames do not come up: a run starts without variables and
instances, and soundness is an invariant of all code (`Invariant.sound`).
-/

namespace Mint

/-! ## Sound frames -/

namespace Heap

/-- If the value is an instance, it has been allocated. -/
def Allocated (heap : Heap) (v : Value) : Prop := ∀ a, v = .inst a → a < heap.size

/-- All instances in fields have been allocated. -/
def Sound (heap : Heap) : Prop :=
  ∀ a name v, heap.field? a name = some v → heap.Allocated v

variable {heap heap' : Heap} {v : Value}

theorem Allocated.later (h : heap.Allocated v) (hext : heap.Extends heap') :
    heap'.Allocated v :=
  fun a ha => Nat.lt_of_lt_of_le (h a ha) hext.size_le

theorem Sound.allocate (h : heap.Sound) (cls : ClassId) : (heap.allocate cls).Sound :=
  fun a name v hfield =>
    (h a name v (field?_allocate hfield)).later (extends_allocate _ _)

theorem Sound.setField (h : heap.Sound) (hv : heap.Allocated v) (a : Address)
    (name : String) :
    (heap.setField a name v).Sound := by
  intro b field w hfield
  rcases field?_setField hfield with ⟨-, rfl⟩ | hfield
  · exact hv.later (extends_setField _ _ _ _)
  · exact (h b field w hfield).later (extends_setField _ _ _ _)

end Heap

/-- All instances in variables and fields have been allocated. -/
structure Frame.Sound (f : Frame) : Prop where
  heap : f.machine.heap.Sound
  scope : ∀ name v, f.scope.get? name = some v → f.machine.heap.Allocated v

/-- A program starts in a sound frame. -/
theorem Frame.sound_start (sink : Sink) : Frame.Sound ⟨∅, .start sink⟩ := by
  refine ⟨fun a name v hfield => ?_, fun name v hv => ?_⟩
  · exact absurd (Heap.lt_size_of_field? hfield) (Nat.not_lt_zero a)
  · cases hv

/-- Instances are allocated before they are referred to. -/
def Invariant.sound (classes : ClassTable) : Invariant classes where
  value := Heap.Allocated
  machine m := m.heap.Sound
  later hext h := h.later hext
  none := by rintro _ _ ⟨⟩
  truth := by rintro _ _ _ ⟨⟩
  number := by rintro _ _ _ ⟨⟩
  cls := by rintro _ _ _ ⟨⟩
  space := by rintro _ _ ⟨⟩
  lineEnd := by rintro _ _ ⟨⟩
  append _ _ := by rintro _ ⟨⟩
  plainText _ _ := by rintro _ ⟨⟩
  field h _ hfield := h _ _ _ hfield
  allocate cls h := by
    refine ⟨h.allocate cls, ?_⟩
    rintro a ⟨⟩
    rw [Heap.size_allocate]
    exact Nat.lt_succ_self _
  setField name h _ hv := h.setField hv _ name
  write h _ := h

section

variable {classes : ClassTable} {fuel : Nat} {f g h : Frame} {m : Machine}

theorem Invariant.admits_sound (constant : Literal) :
    (sound classes).Admits constant := by
  intro _ a ha
  cases constant <;> cases ha

theorem Invariant.classes_sound : (sound classes).Classes :=
  classes_of_admits admits_sound

theorem Invariant.dispatches_sound (fuel : Nat) :
    (sound classes).Dispatches (.within classes fuel) :=
  dispatches_within classes_sound fuel

/-! ## Checked calls -/

/-- What understands a call finds the method, also later. -/
theorem Value.methodFor_of_understands {heap heap' : Heap} {v : Value} {name : String}
    {arity : Nat} (hext : heap.Extends heap') (hv : heap.Allocated v)
    (h : v.understands classes heap name arity = true) :
    ∃ method, v.methodFor classes heap' name arity = .ok method := by
  unfold Value.understands at h
  split at h
  · next a =>
    obtain ⟨method, hmethod⟩ := ClassTable.hasMethod_iff_methodTaking?.mp h
    refine ⟨method, ?_⟩
    simp only [Value.methodFor, hext.classOf_eq a (hv a rfl), hmethod]
  · cases h

/-- There are as many values as arguments. -/
theorem Node.length_of_evalAll {args : List Node} {values : List Value}
    (h : Node.evalAll classes (.within classes fuel) args f = .done (values, g)) :
    values.length = args.length := by
  induction args generalizing f values with
  | nil =>
    rw [Node.evalAll] at h
    cases h
    rfl
  | cons first rest ih =>
    rw [Node.evalAll] at h
    obtain ⟨v, f₁, -, h⟩ := Run.bind_eq_done_iff.mp h
    obtain ⟨vs, f₂, hrest, h⟩ := Run.bind_eq_done_iff.mp h
    cases h
    rw [List.length_cons, List.length_cons, ih hrest]

/-! ## The one call without a check -/

/-- The activity is a comparison that needs the equality of two instances, and `__eq__`
of the left one, which is an instance of the class called `cls`, is not there or does
not take one argument. -/
inductive Activity.LacksEq (classes : ClassTable) : Activity → String → Prop where
  | intro {fuel f g h op left right a b}
    (hop : op ∈ [Comparator.equal, .notEqual, .greater, .lessOrEqual])
    (hleft : left.exec classes (.within classes fuel) f = .done (.inst a, g))
    (hright : right.exec classes (.within classes fuel) g = .done (.inst b, h))
    (hmethod : ∀ method,
      classes.method? (h.machine.heap.classOf a) Special.eq = some method →
      method.params.length ≠ 1) :
    LacksEq classes (.node fuel f (.compare op left right))
    (classes.get (h.machine.heap.classOf a)).name

theorem Value.methodFor_inst_error {heap : Heap} {a : Address} {name : String}
    {arity : Nat} {cause : EvalError}
    (h : (Value.inst a).methodFor classes heap name arity = .error cause) :
    cause = .noSuchMethod name (classes.get (heap.classOf a)).name arity ∧
      ∀ method, classes.method? (heap.classOf a) name = some method →
        method.params.length ≠ arity := by
  simp only [Value.methodFor] at h
  split at h
  · cases h
  · next hnone =>
    cases h
    refine ⟨rfl, fun method hmethod hlength => ?_⟩
    rw [ClassTable.methodTaking?, hmethod, Option.filter_some, hlength, beq_self_eq_true,
      if_pos rfl] at hnone
    cases hnone

/-- A comparison that calls a method which is not there lacks `__eq__`. -/
theorem Activity.lacksEq_of_calls {op : Comparator} {left right : Node} {l r : Value}
    {name : String} {cause : EvalError}
    (hleft : left.exec classes (.within classes fuel) f = .done (l, g))
    (hright : right.exec classes (.within classes fuel) g = .done (r, h))
    (hcalls : op.Calls classes (.within classes fuel) l r h.machine m name)
    (hh : h.machine.heap.Sound) (hl : h.machine.heap.Allocated l)
    (hr : h.machine.heap.Allocated r)
    (herror : l.methodFor classes m.heap name 1 = .error cause) :
    ∃ cls, cause = .noSuchMethod Special.eq cls 1 ∧
      (Activity.node fuel f (.compare op left right)).LacksEq classes cls := by
  have heq : ∀ {a b}, h.machine.heap.Extends m.heap → l = .inst a → r = .inst b →
      op ∈ [Comparator.equal, .notEqual, .greater, .lessOrEqual] →
      l.methodFor classes m.heap Special.eq 1 = .error cause →
      ∃ cls, cause = .noSuchMethod Special.eq cls 1 ∧
        (Activity.node fuel f (.compare op left right)).LacksEq classes cls := by
    rintro a b hext rfl rfl hop herror
    obtain ⟨rfl, hmethod⟩ := Value.methodFor_inst_error herror
    rw [hext.classOf_eq a (hl a rfl)] at hmethod
    rw [hext.classOf_eq a (hl a rfl)]
    exact ⟨_, rfl, .intro hop hleft hright hmethod⟩
  cases hcalls with
  | less _ hmethod =>
    obtain ⟨method, hok⟩ := Value.methodFor_of_understands (.refl _) hl hmethod
    rw [hok] at herror
    cases herror
  | equal hop hleft hright =>
    refine heq (.refl _) hleft hright ?_ herror
    rcases hop with rfl | rfl <;> decide
  | notLess hop hleft hright hanswer =>
    -- `__lt__` has run in between, and may have done anything.
    obtain ⟨-, hext, -⟩ :=
      (Invariant.acts_less (Invariant.dispatches_sound fuel) hh hl hr).done hanswer
    refine heq hext hleft hright ?_ herror
    rcases hop with rfl | rfl <;> decide

/-- What calls a method that is not there is a comparison that lacks `__eq__`: all other
calls are checked. -/
theorem Activity.lacksEq_of_part {A : Activity} {receiver : Value} {name : String}
    {args : List Value} {cause : EvalError}
    (hpart : A.Part classes (.call fuel m receiver name args))
    (hA : (Invariant.sound classes).Governs A)
    (herror : receiver.methodFor classes m.heap name args.length = .error cause) :
    ∃ cls, cause = .noSuchMethod Special.eq cls 1 ∧ A.LacksEq classes cls := by
  have hd := @Invariant.dispatches_sound classes
  have checked : ∀ {heap}, heap.Extends m.heap → heap.Allocated receiver →
      receiver.understands classes heap name args.length ≠ true := by
    intro heap hext hreceiver hmethod
    obtain ⟨method, hok⟩ := Value.methodFor_of_understands hext hreceiver hmethod
    rw [hok] at herror
    cases herror
  obtain ⟨-, hreceiver, -⟩ := Invariant.governs_part Invariant.classes_sound hpart hA
  cases hpart with
  | add _ _ _ hmethod => exact absurd hmethod (checked (.refl _) hreceiver)
  | text hmethod => exact absurd hmethod (checked (.refl _) hreceiver)
  | compare hleft hright hcalls =>
    obtain ⟨hg, -, hl⟩ := (Node.exec_runs (hd _) _ hA.2.1 hA.1).done hleft
    obtain ⟨hh, hext, hr⟩ := (Node.exec_runs (hd _) _ hA.2.2 hg).done hright
    exact lacksEq_of_calls hleft hright hcalls hh.machine (hl.later hext) hr herror
  | init hmethod hargs =>
    obtain ⟨-, hext, -⟩ := (Node.evalAll_runs (hd _) _ hA.2 (hA.1.allocate _)).done hargs
    rw [← Node.length_of_evalAll hargs] at hmethod
    refine absurd ?_ (checked hext ((Invariant.sound classes).allocate _ hA.1.machine).2)
    rw [Value.understands, Frame.allocate, Heap.classOf, Heap.object_allocate_size]
    exact hmethod
  | call hobject hmethod hargs =>
    obtain ⟨hg, -, hobject⟩ := (Node.exec_runs (hd _) _ hA.2.1 hA.1).done hobject
    obtain ⟨-, hext, -⟩ := (Node.evalAll_runs (hd _) _ hA.2.2 hg).done hargs
    rw [← Node.length_of_evalAll hargs] at hmethod
    exact absurd hmethod (checked hext hobject)

end

/-! ## Call errors of a run -/

/-- That the activity fails for this cause is not because of a call that finds no
method, unless the call is of `__eq__`, for a comparison in the activity that fails for
the same cause on the same machine. -/
structure Activity.FindsAllButEq (classes : ClassTable) (A : Activity) (cause : EvalError)
    (m : Machine) : Prop where
  ne_notAnInstance : ∀ method type, cause ≠ .notAnInstance method type
  of_noSuchMethod : ∀ method cls arity,
    cause = .noSuchMethod method cls arity → method = "__eq__" ∧ arity = 1 ∧
    ∃ B, A.Contains classes B ∧ B.LacksEq classes cls ∧
      B.ending classes = .failed (.error cause, m)

section

variable {classes : ClassTable} {fuel : Nat} {f : Frame} {m : Machine} {node : Node}
  {cause : EvalError}

theorem Activity.exists_lacksEq (hf : f.Sound)
    (h : (Activity.node fuel f node).ending classes = .failed (.error cause, m))
    (hcause : cause.isOfCall = true) :
    ∃ cls, cause = .noSuchMethod Special.eq cls 1 ∧
      ∃ B, (Activity.node fuel f node).Contains classes B ∧
      B.LacksEq classes cls ∧ B.ending classes = .failed (.error cause, m) := by
  have hgoverns : (Invariant.sound classes).Governs (.node fuel f node) :=
    ⟨⟨hf.heap, hf.scope⟩, Node.constants_of_forall Invariant.admits_sound node⟩
  obtain ⟨C, hpath, hraises⟩ := exists_origin (.failed hcause) h
  cases hraises with
  | missing herror =>
    -- The activity is no call itself, so something in it has made the call.
    rcases hpath.cases_tail with heq | ⟨B, hpath, hpart, hB⟩
    · cases heq
    · have hcontains : (Activity.node fuel f node).Contains classes B :=
        Relation.ReflTransGen.mono (fun _ _ h => h.1) _ _ hpath
      have hgoverns :=
        Invariant.governs_of_contains Invariant.classes_sound hcontains hgoverns
      obtain ⟨cls, hcls, hlacks⟩ := lacksEq_of_part hpart hgoverns herror
      exact ⟨cls, hcls, B, hcontains, hlacks, hB⟩

theorem Activity.findsAllButEq (hf : f.Sound)
    (h : cause.isOfCall = true →
      (Activity.node fuel f node).ending classes = .failed (.error cause, m)) :
    (Activity.node fuel f node).FindsAllButEq classes cause m := by
  refine ⟨?_, ?_⟩
  · rintro method type rfl
    obtain ⟨cls, hcause, -⟩ := exists_lacksEq hf (h rfl) rfl
    cases hcause
  · rintro method cls arity rfl
    obtain ⟨_, hcause, hB⟩ := exists_lacksEq hf (h rfl) rfl
    cases hcause
    exact ⟨rfl, rfl, hB⟩

end

/-- Whatever tree runs, in whatever sound frame, it does not fail for a call on
something that is no instance, and where it fails because a method is not there, the
method is `__eq__` with one argument: a comparison by `==`, `!=`, `>` or `<=` in the
tree, or in a method that has run, has come to two instances, and the class of the left
one has no such method. So it is with programs. -/
theorem only_equality_misses_its_method :
    (∀ {classes : ClassTable} {node : Node} {fuel : Nat} {frame frame' : Frame}
      {cause : EvalError}, frame.Sound →
      node.exec classes (Dispatch.within classes fuel) frame =
        .failed (.error cause, frame') →
      (Activity.node fuel frame node).FindsAllButEq classes cause frame'.machine) ∧
    ∀ {program : Program} {fuel : Nat} {sink : Sink} {machine : Machine}
      {cause : EvalError}, program.run fuel (.start sink) = .failed (cause, machine) →
      (Activity.node fuel ⟨∅, .start sink⟩ program.body).FindsAllButEq program.classes
        cause machine := by
  constructor
  · intro classes node fuel frame frame' cause hframe h
    refine Activity.findsAllButEq hframe fun _ => ?_
    rw [Activity.ending, Exec.ending, Run.ending, h]
    rfl
  · intro program fuel sink machine cause h
    refine Activity.findsAllButEq (Frame.sound_start sink) fun hcause => ?_
    refine Ending.OfCall.of_program_run (.failed hcause) ?_
    rw [Action.ending, Run.ending, h]
    rfl

/-- A class whose instances have an order, but no equality, and a method that needs
both. -/
def rankProgram : Program where
  statements := [.assign "x" (.create 0 []), .call (.path ["x"]) "after" [.path ["x"]]]
  classes := ⟨#[⟨"Rank", none, [
    ⟨"__lt__", ["other"], .body (.block [.ret (.lit (.truth false))])⟩,
    ⟨"after", ["other"],
      .body (.block [.ret (.compare .greater (.path ["self"]) (.path ["other"]))])⟩]⟩]⟩

/-- The frame in which `rankProgram` makes its call. -/
def rankFrame : Frame := ⟨⟨[("x", .inst 0)]⟩, ⟨⟨#[⟨0, ∅⟩]⟩, .unlimited⟩⟩

theorem rankFrame_sound : rankFrame.Sound := by
  refine ⟨fun a name v hfield => ?_, fun name v hv => ?_⟩
  · match a with
    | 0 => cases hfield
    | a + 1 =>
      exact absurd (Heap.lt_size_of_field? hfield) (by simp [rankFrame, Heap.size])
  · cases Scope.eq_of_get?_singleton hv
    rintro a ⟨⟩
    decide

theorem only_equality_misses_its_method_rank :
    rankFrame.Sound ∧
    (Node.call (.path ["x"]) "after" [.path ["x"]]).exec rankProgram.classes
      (Dispatch.within rankProgram.classes 2) rankFrame =
        .failed (.error (.noSuchMethod "__eq__" "Rank" 1), rankFrame) ∧
    (∃ B, (Activity.node 2 rankFrame (.call (.path ["x"]) "after" [.path ["x"]])).Contains
      rankProgram.classes B ∧
      B.LacksEq rankProgram.classes "Rank") ∧
    rankProgram.run 2 (.start .unlimited) =
      .failed (.noSuchMethod "__eq__" "Rank" 1, rankFrame.machine) ∧
    ∃ B, (Activity.node 2 ⟨∅, .start .unlimited⟩ rankProgram.body).Contains
      rankProgram.classes B ∧
      B.LacksEq rankProgram.classes "Rank" := by
  have hexec : (Node.call (.path ["x"]) "after" [.path ["x"]]).exec rankProgram.classes
      (Dispatch.within rankProgram.classes 2) rankFrame =
        .failed (.error (.noSuchMethod "__eq__" "Rank" 1), rankFrame) := by decide +kernel
  have hrun : rankProgram.run 2 (.start .unlimited) =
      .failed (.noSuchMethod "__eq__" "Rank" 1, rankFrame.machine) := by
    decide +kernel
  obtain ⟨-, -, B, hB, hlacks, -⟩ :=
    (only_equality_misses_its_method.1 rankFrame_sound hexec).of_noSuchMethod _ _ _ rfl
  obtain ⟨-, -, C, hC, hlacks', -⟩ :=
    (only_equality_misses_its_method.2 hrun).of_noSuchMethod _ _ _ rfl
  exact ⟨rankFrame_sound, hexec, ⟨B, hB, hlacks⟩, hrun, C, hC, hlacks'⟩

end Mint
