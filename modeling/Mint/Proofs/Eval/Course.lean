import Mint.Proofs.Eval.Parts

/-!
# The course of a run

The parts of an activity account for the whole of it (`Activity.course`): a part starts
on the heap that the part before it has left, or on what has become of that heap since,
and behind the last part the activity ends, either as that part does or by its own
doing. So what single parts do to the heap can be put together along the list.

Of the causes for which something fails, those of dotted names are told apart: where an
activity ends because a dotted name leads nowhere, there is an activity inside it that
looked the name up (`Activity.exists_misses`).
-/

namespace Mint

/-- The heap on which the activity starts. -/
def Activity.heap : Activity → Heap
  | .node _ f _ | .statements _ f _ | .arguments _ f _ | .printing _ f _ _ =>
    f.machine.heap
  | .call _ m _ _ _ | .render _ m _ => m.heap

/-! ## Courses -/

/-- What the ending leaves of the machine. -/
def Ending.machine? : Ending → Option Machine
  | .done m | .failed (_, m) => some m
  | .starved => none

/-- If the ending is that of a dotted name which leads nowhere, the name was missed for
this cause. -/
def Ending.Own (missed : EvalError → Prop) (e : Ending) : Prop :=
  ∀ cause m, e = .failed (.error cause, m) → cause.isLookup = true → missed cause

/-- Started on a heap, the activities go on one after the other, each as far as it
comes, and then it ends like this. Between them the heap may grow. -/
inductive Course (classes : ClassTable) (missed : EvalError → Prop) :
    Heap → List Activity → Ending → Prop where
  /-- It ends by the doing of what the activities are parts of. -/
  | own {heap e} (hgrown : ∀ m, e.machine? = some m → heap.Extends m.heap)
    (hown : e.Own missed) :
    Course classes missed heap [] e
  /-- It ends as the last part does. -/
  | last {heap A} (hstart : heap.Extends A.heap) :
    Course classes missed heap [A] (A.ending classes)
  | next {heap A m rest e} (hstart : heap.Extends A.heap)
    (hmachine : (A.ending classes).machine? = some m)
    (hrest : Course classes missed m.heap rest e) :
    Course classes missed heap (A :: rest) e

section

variable {classes : ClassTable} {missed : EvalError → Prop} {heap heap' : Heap}
  {m : Machine} {e : Ending} {A : Activity} {now later : List Activity}

namespace Course

theorem done (h : heap.Extends m.heap) : Course classes missed heap [] (.done m) := by
  refine .own (fun m' hm' => ?_) (fun cause m' he => by cases he)
  cases hm'
  exact h

theorem returned {v : Value} (h : heap.Extends m.heap) :
    Course classes missed heap [] (.failed (.returned v, m)) := by
  refine .own (fun m' hm' => ?_) (fun cause m' he => by cases he)
  cases hm'
  exact h

theorem starved : Course classes missed heap [] .starved :=
  .own (fun m hm => by cases hm) (fun cause m he => by cases he)

/-- A failure for a cause that is no matter of dotted names. -/
theorem failed {cause : EvalError} (h : heap.Extends m.heap)
    (hcause : cause.isLookup = false) :
    Course classes missed heap [] (.failed (.error cause, m)) := by
  refine .own (fun m' hm' => ?_) (fun cause' m' he hlookup => ?_)
  · cases hm'
    exact h
  · cases he
    rw [hcause] at hlookup
    cases hlookup

/-- The heap may have grown before. -/
theorem grown (h : Course classes missed heap' now e) (hext : heap.Extends heap') :
    Course classes missed heap now e := by
  cases h with
  | own hgrown hown => exact .own (fun m hm => hext.trans (hgrown m hm)) hown
  | last hstart => exact .last (hext.trans hstart)
  | next hstart hmachine hrest => exact .next (hext.trans hstart) hmachine hrest

/-- One course after another. -/
theorem append (h : Course classes missed heap now (.done m))
    (h' : Course classes missed m.heap later e) :
    Course classes missed heap (now ++ later) e := by
  generalize hdone : Outcome.done m = first at h
  induction h with
  | own hgrown =>
    refine h'.grown (hgrown m ?_)
    rw [← hdone]
    rfl
  | last hstart =>
    refine .next hstart ?_ h'
    rw [← hdone]
    rfl
  | next hstart hmachine _ ih => exact .next hstart hmachine (ih hdone)

variable {ε σ α β : Type} {signal : ε → Signal} {machine : σ → Machine} {x : Run ε σ α}
  {g : α → Run ε σ β} {s : σ} {next : α → σ → List Activity}

/-- A sequence takes the course of its first step and then, if that is done, of the
second. -/
theorem bind (hx : Course classes missed heap now (Run.ending signal machine x s))
    (hg : ∀ a s', x s = .done (a, s') →
      Course classes missed (machine s').heap (next a s')
        (Run.ending signal machine (g a) s')) :
    Course classes missed heap (now ++ (x s).andThen next)
      (Run.ending signal machine (x >>= g) s) := by
  rw [Run.ending] at hx ⊢
  cases hresult : x s with
  | done r =>
    rw [hresult] at hx
    rw [Run.bind_done hresult]
    exact hx.append (hg r.1 r.2 hresult)
  | failed r =>
    rw [hresult] at hx
    rw [Run.bind_failed hresult, Outcome.andThen, List.append_nil]
    exact hx
  | starved =>
    rw [hresult] at hx
    rw [Run.bind_starved hresult, Outcome.andThen, List.append_nil]
    exact hx

/-- A sequence whose second step has no parts. -/
theorem followed (hx : Course classes missed heap now (Run.ending signal machine x s))
    (hg : ∀ a s', x s = .done (a, s') →
      Course classes missed (machine s').heap [] (Run.ending signal machine (g a) s')) :
    Course classes missed heap now (Run.ending signal machine (x >>= g) s) := by
  have h : Course classes missed heap (now ++ (x s).andThen fun _ _ => [])
      (Run.ending signal machine (x >>= g) s) :=
    hx.bind hg
  rwa [Outcome.andThen_nil, List.append_nil] at h

theorem part (hA : A.ending classes = e) (hstart : heap.Extends A.heap) :
    Course classes missed heap [A] e := by
  rw [← hA]
  exact .last hstart

/-- A sequence whose first step is a part. -/
theorem step (hA : A.ending classes = Run.ending signal machine x s)
    (hstart : heap.Extends A.heap) (hg : ∀ a s', x s = .done (a, s') →
      Course classes missed (machine s').heap (next a s')
        (Run.ending signal machine (g a) s')) :
    Course classes missed heap (A :: (x s).andThen next)
      (Run.ending signal machine (x >>= g) s) :=
  (Course.part hA hstart).bind hg

theorem ofAction {x : Action α} {f : Frame}
    (h : Course classes missed heap now (Action.ending x f.machine)) :
    Course classes missed heap now (Exec.ending (Exec.ofAction x) f) := by
  rwa [Exec.ending_ofAction]

/-- An action, and code behind it. -/
theorem act {x : Action α} {g : α → Exec β} {f : Frame}
    {next : α → Machine → List Activity}
    (hx : Course classes missed heap now (Action.ending x f.machine))
    (hg : ∀ a m, x f.machine = .done (a, m) →
      Course classes missed m.heap (next a m) (Exec.ending (g a) ⟨f.scope, m⟩)) :
    Course classes missed heap (now ++ (x f.machine).andThen next)
      (Exec.ending (Exec.ofAction x >>= g) f) := by
  have hparts : (x f.machine).andThen next =
      (Exec.ofAction x f).andThen fun a f' => next a f'.machine := by
    rw [Exec.ofAction]
    cases x f.machine <;> rfl
  rw [hparts]
  refine (Course.ofAction hx).bind fun a f' ha => ?_
  obtain ⟨ha, hscope⟩ := Exec.done_of_ofAction ha
  have h := hg a f'.machine ha
  rwa [← hscope] at h

/-- A `return` that is stopped ends as if it were a value. -/
theorem catchReturn {x : Exec Value} {f : Frame} (hA : A.ending classes = Exec.ending x f)
    (hstart : heap.Extends A.heap) :
    Course classes missed heap [A] (Exec.ending (Exec.catchReturn x) f) := by
  rw [Exec.ending, Run.ending] at hA
  rw [Exec.ending, Run.ending, Exec.catchReturn]
  cases hx : x f with
  | done r =>
    rw [hx] at hA
    exact .part hA hstart
  | starved =>
    rw [hx] at hA
    exact .part hA hstart
  | failed r =>
    obtain ⟨signal, g⟩ := r
    rw [hx] at hA
    cases signal with
    | returned v => exact .next hstart (by rw [hA]; rfl) (.done (.refl _))
    | error cause => exact .part hA hstart

/-- A `return` that comes out of a method is a failure of the call. -/
theorem inScope {x : Exec α} {scope : Scope}
    (hA : A.ending classes = Exec.ending x ⟨scope, m⟩) (hstart : heap.Extends A.heap) :
    Course classes missed heap [A] (Action.ending (Exec.inScope scope x) m) := by
  rw [Exec.ending, Run.ending] at hA
  rw [Action.ending, Run.ending, Exec.inScope]
  cases hx : x ⟨scope, m⟩ with
  | done r =>
    rw [hx] at hA
    exact .part hA hstart
  | starved =>
    rw [hx] at hA
    exact .part hA hstart
  | failed r =>
    obtain ⟨signal, g⟩ := r
    rw [hx] at hA
    cases signal with
    | returned v => exact .next hstart (by rw [hA]; rfl) (.failed (.refl _) rfl)
    | error cause => exact .part hA hstart

theorem write (text : String) :
    Course classes missed m.heap [] (Action.ending (Action.write text) m) := by
  rw [Action.ending, Run.ending, Action.write]
  rcases m.sink.write text.toUTF8 with ⟨fault, sink⟩
  cases fault with
  | none => exact .done (.refl _)
  | some fault => exact .failed (.refl _) rfl

end Course

end

/-! ## Operations -/

section

variable {classes : ClassTable} {missed : EvalError → Prop} {fuel : Nat} {m : Machine}
  {l r : Value}

theorem course_predicate (name : String) :
    Course classes missed m.heap [.call fuel m l name [r]]
      (Action.ending ((Dispatch.within classes fuel).predicate classes l name r) m) := by
  refine .followed (.part rfl (.refl _)) fun answer m' _ => ?_
  split
  · exact .done (.refl _)
  · exact .failed (.refl _) rfl

theorem course_equal : Course classes missed m.heap (l.equalityCalls fuel r m)
    (Action.ending ((Dispatch.within classes fuel).equal classes l r) m) := by
  unfold Dispatch.equal
  split
  · exact .done (.refl _)
  · exact .done (.refl _)
  · exact .done (.refl _)
  · exact .done (.refl _)
  · exact course_predicate _
  · next hinst =>
    have hcalls : l.equalityCalls fuel r m = [] := by
      unfold Value.equalityCalls
      split
      · exact absurd rfl (hinst _ _ rfl)
      · rfl
    rw [hcalls]
    exact .failed (.refl _) rfl

theorem course_less : Course classes missed m.heap (l.orderCalls classes fuel r m)
    (Action.ending ((Dispatch.within classes fuel).less classes l r) m) := by
  have hmismatch : l.understands classes m.heap Special.lt 1 ≠ true →
      Course classes missed m.heap (l.orderCalls classes fuel r m) (Action.ending
        (Dispatch.mismatch classes .incomparable l r : Action Bool) m) := by
    intro hmethod
    rw [Value.orderCalls, if_neg hmethod]
    exact .failed (.refl _) rfl
  unfold Dispatch.less
  split
  · exact .done (.refl _)
  · exact .done (.refl _)
  · exact .done (.refl _)
  · rw [Action.ending_heap]
    split
    · next hmethod =>
      rw [Value.orderCalls, if_pos hmethod]
      exact course_predicate _
    · next hmethod => exact hmismatch hmethod
  · next hinst _ _ _ =>
    refine hmismatch fun hmethod => ?_
    cases l with
    | inst a => exact hinst a rfl
    | _ => cases hmethod

theorem course_compare (op : Comparator) :
    Course classes missed m.heap (op.calls classes fuel l r m)
      (Action.ending ((Dispatch.within classes fuel).compare classes op l r) m) := by
  cases op with
  | equal => exact course_equal
  | notEqual => exact course_equal.followed fun _ _ _ => .done (.refl _)
  | less => exact course_less
  | greaterOrEqual => exact course_less.followed fun _ _ _ => .done (.refl _)
  | greater =>
    refine course_less.bind fun answer m' _ => ?_
    cases answer with
    | true => exact .done (.refl _)
    | false => exact course_equal.followed fun _ _ _ => .done (.refl _)
  | lessOrEqual =>
    refine course_less.bind fun answer m' _ => ?_
    cases answer with
    | true => exact .done (.refl _)
    | false => exact course_equal

theorem course_arith (op : ArithOp) :
    Course classes missed m.heap (op.calls classes fuel l r m)
      (Action.ending ((Dispatch.within classes fuel).arith classes op l r) m) := by
  have hnone :
      ¬(op = .add ∧ r ≠ .none ∧ l.understands classes m.heap Special.add 1 = true) →
      op.calls classes fuel l r m = [] := fun h => if_neg h
  unfold Dispatch.arith
  split
  · rw [hnone fun h => by cases h.2.2]
    split
    · exact .done (.refl _)
    · exact .failed (.refl _) rfl
  · rw [hnone fun h => by cases h.2.2]
    exact .done (.refl _)
  · rw [Action.ending_heap]
    split
    · next hmethod =>
      rw [ArithOp.calls, if_pos ⟨rfl, hmethod⟩]
      exact .part rfl (.refl _)
    · next hmethod =>
      rw [hnone fun h => hmethod h.2]
      exact .failed (.refl _) rfl
  · next hinst _ _ =>
    have hcalls : op.calls classes fuel l r m = [] := by
      refine hnone ?_
      rintro ⟨rfl, -, hmethod⟩
      cases l with
      | inst a => exact hinst a rfl rfl
      | _ => cases hmethod
    rw [hcalls]
    exact .failed (.refl _) rfl

theorem course_logic (op : LogicOp) : Course classes missed m.heap []
    (Action.ending (Dispatch.logic classes op l r) m) := by
  unfold Dispatch.logic
  split
  · exact .failed (.refl _) rfl
  · exact .done (.refl _)

theorem course_negate :
    Course classes missed m.heap [] (Action.ending (Dispatch.negate classes l) m) := by
  unfold Dispatch.negate
  split
  · exact .failed (.refl _) rfl
  · exact .done (.refl _)

end

/-! ## Activities -/

theorem Value.isLookup_of_methodFor {classes : ClassTable} {heap : Heap} {v : Value}
    {name : String} {arity : Nat} {cause : EvalError}
    (h : v.methodFor classes heap name arity = .error cause) :
    cause.isLookup = false := by
  unfold Value.methodFor at h
  split at h
  · dsimp only at h
    split at h
    · cases h
    · cases h
      rfl
  · cases h
    rfl

/-- The activity looks up a dotted name that leads nowhere, for this cause. -/
inductive Activity.Misses (classes : ClassTable) : Activity → EvalError → Prop where
  | path {fuel f segments cause}
    (h : Path.resolve classes f.machine.heap f.scope segments = .error cause) :
    Misses classes (.node fuel f (.path segments)) cause
  | object {fuel f object field value cause}
    (h : Path.target classes f.machine.heap f.scope object field = .error cause) :
    Misses classes (.node fuel f (.setField object field value)) cause

namespace Activity

/-- The heap on which the first part starts. An instance is made before anything else
is. -/
def opening : Activity → Heap
  | .node _ f (.create cls _) => f.machine.heap.allocate cls
  | A => A.heap

variable {classes : ClassTable} {fuel : Nat} {f : Frame} {m : Machine}

theorem course_missed {missed : EvalError → Prop} {cause : EvalError} (h : missed cause) :
    Course classes missed m.heap [] (.failed (.error cause, m)) := by
  refine .own (fun m' hm' => ?_) (fun cause' m' he _ => ?_)
  · cases hm'
    exact .refl _
  · cases he
    exact h

theorem course_node (n : Node) :
    Course classes ((node fuel f n).Misses classes) (node fuel f n).opening
      (n.parts classes fuel f) ((node fuel f n).ending classes) := by
  rw [ending]
  cases n with
  | lit | none | define =>
    rw [Node.exec]
    exact .done (.refl _)
  | path segments =>
    rw [Node.exec, Exec.ending, Run.ending, Node.ofLookup]
    cases hresolve : Path.resolve classes f.machine.heap f.scope segments with
    | ok v => exact .done (.refl _)
    | error cause => exact course_missed (.path hresolve)
  | assign name value =>
    rw [Node.exec]
    exact .followed (.part rfl (.refl _)) fun v g _ => .done (.refl _)
  | setField object field value =>
    rw [Node.exec, Node.parts]
    cases htarget : Path.target classes f.machine.heap f.scope object field with
    | error cause =>
      rw [Exec.ending, Run.ending, Run.bind_failed (by rw [Node.ofLookup, htarget])]
      exact course_missed (.object htarget)
    | ok a =>
      rw [Exec.ending, Run.ending, Run.bind_done (by rw [Node.ofLookup, htarget])]
      exact .followed (.part rfl (.refl _)) fun v g _ =>
        .done (Heap.extends_setField _ _ _ _)
  | arith op left right =>
    rw [Node.exec]
    refine .step rfl (.refl _) fun l g _ => .step rfl (.refl _) fun r h _ => ?_
    exact .ofAction (course_arith op)
  | logic op left right =>
    rw [Node.exec]
    refine .step rfl (.refl _) fun l g _ =>
      .followed (.part rfl (.refl _)) fun r h _ => ?_
    exact .ofAction (course_logic op)
  | not operand =>
    rw [Node.exec]
    exact .followed (.part rfl (.refl _)) fun v g _ => .ofAction course_negate
  | compare op left right =>
    rw [Node.exec]
    refine .step rfl (.refl _) fun l g _ => .step rfl (.refl _) fun r h _ => ?_
    exact (Course.ofAction (course_compare op)).followed fun answer h' _ =>
      .done (.refl _)
  | ifThen condition yes =>
    rw [Node.exec]
    refine .step rfl (.refl _) fun v g _ => ?_
    split
    · exact .part rfl (.refl _)
    · exact .done (.refl _)
  | ifElse condition yes no =>
    rw [Node.exec]
    refine .step rfl (.refl _) fun v g _ => ?_
    split
    · exact .part rfl (.refl _)
    · exact .part rfl (.refl _)
  | block nodes =>
    rw [Node.exec]
    exact .followed (.part rfl (.refl _)) fun _ g _ => .done (.refl _)
  | ret value =>
    rw [Node.exec]
    exact .followed (.part rfl (.refl _)) fun v g _ => .returned (.refl _)
  | body inner =>
    rw [Node.exec]
    exact .catchReturn rfl (.refl _)
  | create cls args =>
    have hallocate : Exec.ofAction (Action.allocate cls) f =
      .done (.inst f.machine.heap.size, f.allocate cls) := rfl
    rw [Node.exec, Node.parts, opening, Exec.ending, Run.ending, Run.bind_done hallocate]
    split
    · refine .step rfl (.refl _) fun values g _ => ?_
      exact .followed (.ofAction (.part rfl (.refl _))) fun v h _ => .done (.refl _)
    · exact .done (.refl _)
  | print args =>
    rw [Node.exec]
    exact .followed (.part rfl (.refl _)) fun _ g _ => .done (.refl _)
  | str operand =>
    rw [Node.exec]
    refine .step rfl (.refl _) fun v g _ => ?_
    exact .followed (.ofAction (.part rfl (.refl _))) fun text h _ => .done (.refl _)
  | call object method args =>
    rw [Node.exec]
    refine .step rfl (.refl _) fun receiver g _ => ?_
    have hheap : Exec.ofAction Action.heap g = .done (g.machine.heap, g) := rfl
    rw [Run.ending, Run.bind_done hheap]
    split
    · refine .step rfl (.refl _) fun values h _ => ?_
      exact .ofAction (.part rfl (.refl _))
    · exact .done (.refl _)

/-- The parts of an activity take the course of the activity. -/
theorem course (A : Activity) :
    Course classes (A.Misses classes) A.opening (A.parts classes) (A.ending classes) := by
  cases A with
  | node fuel f n => exact course_node n
  | statements fuel f ns =>
    rw [ending]
    cases ns with
    | nil =>
      rw [Node.execAll]
      exact .done (.refl _)
    | cons n ns =>
      rw [Node.execAll]
      exact .step rfl (.refl _) fun v g _ => .part rfl (.refl _)
  | arguments fuel f ns =>
    rw [ending]
    cases ns with
    | nil =>
      rw [Node.evalAll]
      exact .done (.refl _)
    | cons n ns =>
      rw [Node.evalAll]
      refine .step rfl (.refl _) fun v g _ => ?_
      exact .followed (.part rfl (.refl _)) fun values h _ => .done (.refl _)
  | printing fuel f separate ns =>
    rw [ending]
    cases ns with
    | nil =>
      rw [Node.printAll]
      exact .ofAction (.write _)
    | cons n ns =>
      rw [Node.printAll]
      refine .step rfl (.refl _) fun v g _ => ?_
      -- The rest of the row, once the separator is written.
      have tail :
          ∀ m, Course classes (Misses classes (printing fuel f separate (n :: ns))) m.heap
            (.render fuel m v :: (renderValue classes fuel v m).andThen fun text m' =>
            (Action.write text m').andThen fun _ m'' =>
              [.printing fuel ⟨g.scope, m''⟩ true ns])
          (Exec.ending (do
            let text ← Exec.ofAction (renderValue classes fuel v)
            Exec.ofAction (Action.write text)
            Node.printAll classes (.within classes fuel) true ns) ⟨g.scope, m⟩) := by
        intro m
        have hrender : Course classes (Misses classes
            (printing fuel f separate (n :: ns))) m.heap [.render fuel m v]
              (Action.ending (renderValue classes fuel v) (Frame.mk g.scope m).machine) :=
          .part rfl (.refl _)
        exact hrender.act fun text m' _ =>
          Course.act (f := ⟨g.scope, m'⟩) (.write _) fun _ m'' _ => .part rfl (.refl _)
      cases separate with
      | false => exact tail g.machine
      | true => exact Course.act (.write _) fun _ m _ => tail m
  | call fuel m receiver name args =>
    rw [ending]
    cases hfound : receiver.methodFor classes m.heap name args.length with
    | error cause =>
      have hcause := Value.isLookup_of_methodFor hfound
      cases fuel with
      | zero =>
        rw [callMethod, Action.ending_heap, hfound]
        exact .failed (.refl _) hcause
      | succ fuel =>
        rw [callMethod, Action.ending_heap, parts, hfound]
        exact .failed (.refl _) hcause
    | ok method =>
      cases fuel with
      | zero =>
        rw [callMethod, Action.ending_heap, hfound]
        exact .starved
      | succ fuel =>
        rw [callMethod, Action.ending_heap, parts, hfound]
        show Course classes _ m.heap
          _ (Action.ending (method.run classes (.within classes fuel) receiver args) m)
        exact .followed (.inScope rfl (.refl _)) fun v m' _ => .done (.refl _)
  | render fuel m v =>
    rw [ending]
    cases fuel with
    | zero =>
      rw [renderValue, Action.ending_heap]
      split
      · exact .starved
      · exact .done (.refl _)
    | succ fuel =>
      rw [renderValue, Action.ending_heap, parts]
      split
      · exact .step rfl (.refl _) fun result m' _ => .part rfl (.refl _)
      · exact .done (.refl _)

end Activity

/-! ## Where a dotted name is missed -/

theorem Course.exists_of_failed {classes : ClassTable} {missed : EvalError → Prop}
    {heap : Heap} {now : List Activity} {cause : EvalError} {m : Machine}
    (h : Course classes missed heap now (.failed (.error cause, m)))
    (hcause : cause.isLookup = true) :
    missed cause ∨ ∃ A ∈ now, A.ending classes = .failed (.error cause, m) := by
  generalize hfailed : Outcome.failed (Signal.error cause, m) = e at h
  induction h with
  | own _ hown => exact .inl (hown cause m hfailed.symm hcause)
  | last => exact .inr ⟨_, List.mem_cons_self, rfl⟩
  | next _ _ _ ih =>
    rcases ih hfailed with h | ⟨A, hA, hending⟩
    · exact .inl h
    · exact .inr ⟨A, List.mem_cons_of_mem _ hA, hending⟩

/-- An activity that fails because of a dotted name has one inside it that looks the
name up. -/
theorem Activity.exists_misses {classes : ClassTable} {A : Activity} {cause : EvalError}
    {m : Machine} (h : A.ending classes = .failed (.error cause, m))
    (hcause : cause.isLookup = true) :
    ∃ B, A.Contains classes B ∧ B.Misses classes cause := by
  induction hmeasure : A.measure using WellFoundedLT.induction generalizing A with
  | ind measure ih =>
    have hcourse : Course classes (A.Misses classes) A.opening (A.parts classes)
        (.failed (.error cause, m)) := by
      rw [← h]
      exact A.course
    rcases hcourse.exists_of_failed hcause with hmisses | ⟨B, hB, hending⟩
    · exact ⟨A, .refl, hmisses⟩
    · have hpart := mem_parts.mp hB
      obtain ⟨C, hcontains, hmisses⟩ :=
        ih B.measure (hmeasure ▸ hpart.measure_lt) hending rfl
      exact ⟨C, .head hpart hcontains, hmisses⟩

end Mint
