import Mint.Proofs.Eval.Congruence

/-!
# Conditions on values and machines that running code keeps

Values come from few places: constants, arithmetic, texts, new instances, variables and
fields. A condition that holds of what comes from there, and that the machine keeps when
a field is set or a text is written, holds of every value and of every machine that a
run meets. `Invariant` lists what has to be checked, and `Node.exec_runs` walks the tree
once for all such conditions.

A condition on a value may refer to the heap, for a value is held on to while the heap
goes on growing. Growth is a fact of its own (`Heap.Extends`): no instance is ever gone,
and none changes its class.
-/

namespace Mint

/-! ## Growth of the heap -/

namespace Heap

/-- What becomes of a heap as a run goes on: no instance is gone, and none has another
class. -/
structure Extends (before after : Heap) : Prop where
  size_le : before.size ≤ after.size
  classOf_eq : ∀ a, a < before.size → after.classOf a = before.classOf a

variable {heap heap' heap'' : Heap}

theorem Extends.refl (heap : Heap) : heap.Extends heap := ⟨Nat.le_refl _, fun _ _ => rfl⟩

theorem Extends.trans (h : heap.Extends heap') (h' : heap'.Extends heap'') :
    heap.Extends heap'' := by
  refine ⟨Nat.le_trans h.size_le h'.size_le, fun a ha => ?_⟩
  rw [h'.classOf_eq a (Nat.lt_of_lt_of_le ha h.size_le), h.classOf_eq a ha]

/-- What was not allocated reads as an instance without fields. -/
theorem object_of_size_le {a : Address} (h : heap.size ≤ a) : heap.object a = ⟨0, ∅⟩ := by
  have h' : heap.objects.size ≤ a := h
  rw [object, Array.getD_eq_getD_getElem?, Array.getElem?_eq_none h']
  rfl

/-- Reading after allocation. -/
theorem object_allocate (heap : Heap) (cls : ClassId) (a : Address) :
    (heap.allocate cls).object a = if a = heap.size then ⟨cls, ∅⟩ else heap.object a := by
  rcases Nat.lt_trichotomy a heap.size with hlt | rfl | hgt
  · rw [object_allocate_of_lt cls hlt, if_neg (Nat.ne_of_lt hlt)]
  · rw [object_allocate_size, if_pos rfl]
  · rw [object_of_size_le (by rw [size_allocate]; exact hgt), if_neg (Nat.ne_of_gt hgt),
      object_of_size_le (Nat.le_of_lt hgt)]

/-- Where no instance is, nothing can be stored. -/
theorem setField_of_size_le {a : Address} (h : heap.size ≤ a) (field : String)
    (v : Value) :
    heap.setField a field v = heap := by
  have h' : heap.objects.size ≤ a := h
  have hmodify : heap.objects.modify a (fun o =>
      { o with fields := o.fields.insert field v }) = heap.objects := by
    apply Array.ext_getElem?
    intro i
    rw [Array.getElem?_modify]
    split
    · next hi =>
      subst hi
      rw [Array.getElem?_eq_none h']
      rfl
    · rfl
  rw [setField, hmodify]

theorem extends_allocate (heap : Heap) (cls : ClassId) :
    heap.Extends (heap.allocate cls) := by
  refine ⟨by rw [size_allocate]; exact Nat.le_succ _, fun a ha => ?_⟩
  rw [classOf, object_allocate_of_lt cls ha, classOf]

/-- A new instance keeps its class. -/
theorem Extends.classOf_allocate {cls : ClassId} (h : (heap.allocate cls).Extends heap') :
    heap'.classOf heap.size = cls := by
  rw [h.classOf_eq heap.size (by rw [size_allocate]; exact Nat.lt_succ_self _), classOf,
    object_allocate_size]

theorem extends_setField (heap : Heap) (a : Address) (field : String) (v : Value) :
    heap.Extends (heap.setField a field v) := by
  refine ⟨Nat.le_of_eq (size_setField heap a field v).symm, fun b _ => ?_⟩
  by_cases ha : a < heap.size
  · rw [classOf, object_setField ha, classOf]
    split
    · next hb => rw [hb]
    · rfl
  · rw [setField_of_size_le (Nat.not_lt.mp ha)]

section

variable {a b : Address} {name : String} {v w : Value}

theorem lt_size_of_field? (h : heap.field? a name = some v) : a < heap.size := by
  refine Nat.lt_of_not_le fun hge => ?_
  rw [field?, object_of_size_le hge] at h
  cases h

/-- A new instance has no fields. -/
theorem field?_allocate {cls : ClassId} (h : (heap.allocate cls).field? a name = some v) :
    heap.field? a name = some v := by
  rw [field?, object_allocate] at h
  split at h
  · cases h
  · exact h

/-- What a field reads as after a write is what was written or what it read as before. -/
theorem field?_setField {field : String}
    (h : (heap.setField a field v).field? b name = some w) :
    (b = a ∧ w = v) ∨ heap.field? b name = some w := by
  by_cases ha : a < heap.size
  · rw [field?, object_setField ha] at h
    split at h
    · next hb =>
      rw [Scope.get?_insert] at h
      split at h
      · cases h
        exact .inl ⟨hb, rfl⟩
      · rw [hb]
        exact .inr h
    · exact .inr h
  · rw [setField_of_size_le (Nat.not_lt.mp ha)] at h
    exact .inr h

end

end Heap

/-! ## Where runs end -/

/-- The state in which a step ends, unless fuel has run out. -/
def Outcome.state? {ε α σ : Type} : Outcome (ε × σ) (α × σ) → Option σ
  | .done (_, s) | .failed (_, s) => some s
  | .starved => none

section

variable {α β : Type}

/-- A sequence ends where its first step does or where its second does. -/
theorem Run.state?_bind {ε σ : Type} {x : Run ε σ α} {g : α → Run ε σ β} {s s' : σ}
    (h : ((x >>= g) s).state? = some s') :
    (x s).state? = some s' ∨ ∃ a t, (x s).state? = some t ∧ (g a t).state? = some s' := by
  cases hx : x s with
  | starved =>
    rw [Run.bind_starved hx] at h
    cases h
  | failed r =>
    rw [Run.bind_failed hx] at h
    exact .inl h
  | done r =>
    rw [Run.bind_done hx] at h
    exact .inr ⟨r.1, r.2, rfl, h⟩

theorem Node.state?_ofLookup (lookup : Heap → Scope → Except EvalError α) (f : Frame) :
    (Node.ofLookup lookup f).state? = some f := by
  rw [Node.ofLookup]
  split <;> rfl

theorem Exec.state?_ofAction (x : Action α) (f : Frame) :
    (Exec.ofAction x f).state? =
      (x f.machine).state?.map fun machine => { f with machine } := by
  rw [Exec.ofAction]
  cases x f.machine <;> rfl

/-- A `return` that is caught ends where it came from. -/
theorem Exec.state?_catchReturn (x : Exec Value) (f : Frame) :
    (Exec.catchReturn x f).state? = (x f).state? := by
  rw [Exec.catchReturn]
  split
  · next hx =>
    rw [hx]
    rfl
  · rfl

/-- The variables of a scope of its own are given up in the end. -/
theorem Exec.state?_inScope (scope : Scope) (x : Exec α) (m : Machine) :
    (Exec.inScope scope x m).state? = (x ⟨scope, m⟩).state?.map Frame.machine := by
  rw [Exec.inScope]
  cases x ⟨scope, m⟩ <;> rfl

end

/-! ## Runs that keep to a law -/

/-- What is asked of the states of a run, of a later state against an earlier one, and
of the cause of a failure. -/
structure Law (ε σ : Type) where
  state : σ → Prop
  step : σ → σ → Prop
  cause : σ → ε → Prop
  refl : ∀ s, step s s
  trans : ∀ {s t u}, step s t → step t u → step s u

/-- Started in `s`, the run keeps to the law however it ends, and what it yields is as
`P` says. -/
structure Law.Keeps {ε σ α : Type} (law : Law ε σ) (x : Run ε σ α) (s : σ)
    (P : σ → α → Prop) : Prop where
  done : ∀ {a s'}, x s = .done (a, s') → law.state s' ∧ law.step s s' ∧ P s' a
  failed : ∀ {e s'}, x s = .failed (e, s') → law.state s' ∧ law.step s s' ∧ law.cause s' e

namespace Law.Keeps

variable {ε σ α β : Type} {law : Law ε σ} {s : σ} {P : σ → α → Prop} {Q : σ → β → Prop}

theorem state {x : Run ε σ α} {s' : σ} (h : law.Keeps x s P)
    (hx : (x s).state? = some s') : law.state s' := by
  cases hresult : x s with
  | done r =>
    rw [hresult] at hx
    cases hx
    exact (h.done hresult).1
  | failed r =>
    rw [hresult] at hx
    cases hx
    exact (h.failed hresult).1
  | starved =>
    rw [hresult] at hx
    cases hx

theorem pure {a : α} (hs : law.state s) (h : P s a) : law.Keeps (pure a) s P := by
  refine ⟨fun hdone => ?_, fun hfailed => (by cases hfailed)⟩
  cases hdone
  exact ⟨hs, law.refl s, h⟩

theorem fail {e : ε} (hs : law.state s) (he : law.cause s e) :
    law.Keeps (Run.fail e) s P := by
  refine ⟨fun hdone => (by cases hdone), fun hfailed => ?_⟩
  cases hfailed
  exact ⟨hs, law.refl s, he⟩

theorem starve : law.Keeps Run.starve s P :=
  ⟨fun hdone => (by cases hdone), fun hfailed => (by cases hfailed)⟩

theorem bind {x : Run ε σ α} {g : α → Run ε σ β} (h : law.Keeps x s P)
    (k : ∀ a s', law.state s' → law.step s s' → P s' a → law.Keeps (g a) s' Q) :
    law.Keeps (x >>= g) s Q := by
  cases hx : x s with
  | starved =>
    refine ⟨fun hdone => ?_, fun hfailed => ?_⟩
    · rw [Run.bind_starved hx] at hdone
      cases hdone
    · rw [Run.bind_starved hx] at hfailed
      cases hfailed
  | failed r =>
    refine ⟨fun hdone => ?_, fun hfailed => ?_⟩
    · rw [Run.bind_failed hx] at hdone
      cases hdone
    · rw [Run.bind_failed hx] at hfailed
      cases hfailed
      exact h.failed hx
  | done r =>
    obtain ⟨a, s'⟩ := r
    obtain ⟨hs', hstep, ha⟩ := h.done hx
    have hrest := k a s' hs' hstep ha
    refine ⟨fun hdone => ?_, fun hfailed => ?_⟩
    · rw [Run.bind_done hx] at hdone
      obtain ⟨hs'', hstep', hb⟩ := hrest.done hdone
      exact ⟨hs'', law.trans hstep hstep', hb⟩
    · rw [Run.bind_done hx] at hfailed
      obtain ⟨hs'', hstep', he⟩ := hrest.failed hfailed
      exact ⟨hs'', law.trans hstep hstep', he⟩

theorem ite {p : Prop} [Decidable p] {x y : Run ε σ α} (h : p → law.Keeps x s P)
    (h' : ¬p → law.Keeps y s P) :
    law.Keeps (if p then x else y) s P := by
  split
  · next hp => exact h hp
  · next hp => exact h' hp

end Law.Keeps

/-! ## Invariants -/

/-- A condition on values and one on machines that all code keeps. -/
structure Invariant (classes : ClassTable) where
  /-- What is asked of a value, given the heap. -/
  value : Heap → Value → Prop
  machine : Machine → Prop
  /-- What a value has it keeps as the heap grows. -/
  later : ∀ {heap heap' v}, heap.Extends heap' → value heap v → value heap' v
  none : ∀ {heap}, value heap .none
  truth : ∀ {heap b}, value heap (.truth b)
  number : ∀ {heap n}, value heap (.number n)
  cls : ∀ {heap i}, value heap (.cls i)
  space : ∀ {heap}, value heap (.text " ")
  lineEnd : ∀ {heap}, value heap (.text "\n")
  append : ∀ {heap s t},
    value heap (.text s) → value heap (.text t) → value heap (.text (s ++ t))
  plainText : ∀ {m v},
    machine m → value m.heap v → value m.heap (.text (v.plainText classes m.heap))
  field : ∀ {m a name v},
    machine m → value m.heap (.inst a) → m.heap.field? a name = some v → value m.heap v
  allocate : ∀ {m} cls, machine m → machine { m with heap := m.heap.allocate cls } ∧
    value (m.heap.allocate cls) (.inst m.heap.size)
  setField : ∀ {m a v} name, machine m → value m.heap (.inst a) → value m.heap v →
    machine { m with heap := m.heap.setField a name v }
  write : ∀ {m t}, machine m → value m.heap (.text t) →
    machine { m with sink := (m.sink.write t.toUTF8).2 }

namespace Node

mutual

/-- Every constant of the tree is as asked. Methods of the classes that the tree names
are not looked into. -/
def Constants (asked : Literal → Prop) : Node → Prop
  | .lit value => asked value
  | .none | .path _ | .define _ => True
  | .assign _ value | .setField _ _ value | .not value | .str value | .ret value
  | .body value => value.Constants asked
  | .arith _ left right | .logic _ left right | .compare _ left right =>
    left.Constants asked ∧ right.Constants asked
  | .ifThen condition yes => condition.Constants asked ∧ yes.Constants asked
  | .ifElse condition yes no =>
    condition.Constants asked ∧ yes.Constants asked ∧ no.Constants asked
  | .block nodes | .create _ nodes | .print nodes => AllConstants asked nodes
  | .call object _ args => object.Constants asked ∧ AllConstants asked args

/-- Every constant of the trees is as asked. -/
def AllConstants (asked : Literal → Prop) : List Node → Prop
  | [] => True
  | first :: rest => first.Constants asked ∧ AllConstants asked rest

end

mutual

/-- What holds of every constant holds of the constants of a tree. -/
theorem constants_of_forall {asked : Literal → Prop} (h : ∀ value, asked value) :
    ∀ n : Node, n.Constants asked
  | .lit value => h value
  | .none | .path _ | .define _ => trivial
  | .assign _ value | .setField _ _ value | .not value | .str value | .ret value
  | .body value =>
    constants_of_forall h value
  | .arith _ left right | .logic _ left right | .compare _ left right =>
    ⟨constants_of_forall h left, constants_of_forall h right⟩
  | .ifThen condition yes => ⟨constants_of_forall h condition, constants_of_forall h yes⟩
  | .ifElse condition yes no =>
    ⟨constants_of_forall h condition, constants_of_forall h yes, constants_of_forall h no⟩
  | .block nodes | .create _ nodes | .print nodes => allConstants_of_forall h nodes
  | .call object _ args => ⟨constants_of_forall h object, allConstants_of_forall h args⟩

theorem allConstants_of_forall {asked : Literal → Prop} (h : ∀ value, asked value) :
    ∀ ns : List Node, AllConstants asked ns
  | [] => trivial
  | first :: rest => ⟨constants_of_forall h first, allConstants_of_forall h rest⟩

end

end Node

namespace Invariant

variable {classes : ClassTable} (I : Invariant classes) {α β : Type}

/-- The constant may stand in a tree. -/
def Admits (constant : Literal) : Prop := ∀ heap, I.value heap constant.value

/-- All values of the scope are as asked. -/
def Binds (heap : Heap) (scope : Scope) : Prop :=
  ∀ name v, scope.get? name = some v → I.value heap v

/-- All values in sight and the machine are as asked. -/
structure Holds (f : Frame) : Prop where
  machine : I.machine f.machine
  scope : I.Binds f.machine.heap f.scope

/-- What is asked of actions. -/
def actionLaw : Law EvalError Machine where
  state := I.machine
  step m m' := m.heap.Extends m'.heap
  cause _ _ := True
  refl m := .refl m.heap
  trans h h' := h.trans h'

/-- What is asked of code in a scope. The value of a `return` is as every value. -/
def codeLaw : Law Signal Frame where
  state := I.Holds
  step f f' := f.machine.heap.Extends f'.machine.heap
  cause f signal := ∀ v, signal = .returned v → I.value f.machine.heap v
  refl f := .refl f.machine.heap
  trans h h' := h.trans h'

/-- Started on the machine `m`, the action leaves the machine as asked, and what it
yields is as `P` says. -/
def Acts (x : Action α) (m : Machine) (P : Heap → α → Prop) : Prop :=
  I.actionLaw.Keeps x m fun m' a => P m'.heap a

/-- Started in the frame `f`, the code leaves the frame as asked, and what it yields is
as `P` says. -/
def Runs (x : Exec α) (f : Frame) (P : Heap → α → Prop) : Prop :=
  I.codeLaw.Keeps x f fun f' a => P f'.machine.heap a

variable {I} {m : Machine} {f : Frame} {P : Heap → α → Prop} {Q : Heap → β → Prop}

theorem Binds.later {heap heap' : Heap} {scope : Scope} (h : I.Binds heap scope)
    (hext : heap.Extends heap') :
    I.Binds heap' scope := fun name v hv => I.later hext (h name v hv)

theorem Binds.insert {heap : Heap} {scope : Scope} (h : I.Binds heap scope) {v : Value}
    (hv : I.value heap v) (name : String) : I.Binds heap (scope.insert name v) := by
  intro key w hw
  rw [Scope.get?_insert] at hw
  split at hw
  · cases hw
    exact hv
  · exact h key w hw

/-! ## Actions -/

namespace Acts

theorem pure {a : α} (hm : I.machine m) (h : P m.heap a) : I.Acts (pure a) m P :=
  Law.Keeps.pure hm h

theorem fail (e : EvalError) (hm : I.machine m) : I.Acts (Run.fail e) m P :=
  Law.Keeps.fail hm trivial

theorem starve : I.Acts (Run.starve : Action α) m P := Law.Keeps.starve

theorem bind {x : Action α} {g : α → Action β} (h : I.Acts x m P)
    (k : ∀ a m', I.machine m' → m.heap.Extends m'.heap → P m'.heap a →
      I.Acts (g a) m' Q) : I.Acts (x >>= g) m Q :=
  Law.Keeps.bind h k

theorem ite {p : Prop} [Decidable p] {x y : Action α} (h : p → I.Acts x m P)
    (h' : ¬p → I.Acts y m P) :
    I.Acts (if p then x else y) m P := Law.Keeps.ite h h'

/-- What the heap is when it is looked at. -/
theorem heap {g : Heap → Action α} (h : I.Acts (g m.heap) m P) :
    I.Acts (Action.heap >>= g) m P :=
  ⟨fun hdone => h.done hdone, fun hfailed => h.failed hfailed⟩

theorem allocate (cls : ClassId) (hm : I.machine m) :
    I.Acts (Action.allocate cls) m I.value := by
  refine ⟨fun hdone => ?_, fun hfailed => by cases hfailed⟩
  cases hdone
  obtain ⟨hm', hv⟩ := I.allocate cls hm
  exact ⟨hm', Heap.extends_allocate _ _, hv⟩

theorem setField {a : Address} {v : Value} (name : String) (hm : I.machine m)
    (ha : I.value m.heap (.inst a)) (hv : I.value m.heap v) :
    I.Acts (Action.setField a name v) m (fun _ _ => True) := by
  refine ⟨fun hdone => ?_, fun hfailed => by cases hfailed⟩
  cases hdone
  exact ⟨I.setField name hm ha hv, Heap.extends_setField _ _ _ _, trivial⟩

theorem write {text : String} (hm : I.machine m) (ht : I.value m.heap (.text text)) :
    I.Acts (Action.write text) m (fun _ _ => True) := by
  have hwritten := I.write hm ht
  refine ⟨fun hdone => ?_, fun hfailed => ?_⟩
  · simp only [Action.write] at hdone
    split at hdone
    · next hsink =>
      cases hdone
      rw [hsink] at hwritten
      exact ⟨hwritten, .refl _, trivial⟩
    · cases hdone
  · simp only [Action.write] at hfailed
    split at hfailed
    · cases hfailed
    · next hsink =>
      cases hfailed
      rw [hsink] at hwritten
      exact ⟨hwritten, .refl _, trivial⟩

/-- Code that runs in a scope of its own. -/
theorem inScope {scope : Scope} {x : Exec α} (h : I.Runs x ⟨scope, m⟩ P) :
    I.Acts (Exec.inScope scope x) m (fun heap r => P heap r.1 ∧ I.Binds heap r.2) := by
  refine ⟨fun hdone => ?_, fun hfailed => ?_⟩
  · simp only [Exec.inScope] at hdone
    split at hdone
    · next hx =>
      cases hdone
      obtain ⟨hf, hext, ha⟩ := h.done hx
      exact ⟨hf.machine, hext, ha, hf.scope⟩
    · cases hdone
    · cases hdone
  · simp only [Exec.inScope] at hfailed
    split at hfailed
    · cases hfailed
    · next hx =>
      cases hfailed
      obtain ⟨hf, hext, -⟩ := h.failed hx
      exact ⟨hf.machine, hext, trivial⟩
    · cases hfailed

end Acts

/-! ## Code in a scope -/

namespace Runs

theorem pure {a : α} (hf : I.Holds f) (h : P f.machine.heap a) : I.Runs (pure a) f P :=
  Law.Keeps.pure hf h

theorem bind {x : Exec α} {g : α → Exec β} (h : I.Runs x f P)
    (k : ∀ a f', I.Holds f' → f.machine.heap.Extends f'.machine.heap →
      P f'.machine.heap a → I.Runs (g a) f' Q) :
    I.Runs (x >>= g) f Q := Law.Keeps.bind h k

theorem ite {p : Prop} [Decidable p] {x y : Exec α} (h : p → I.Runs x f P)
    (h' : ¬p → I.Runs y f P) :
    I.Runs (if p then x else y) f P := Law.Keeps.ite h h'

theorem returned {v : Value} (hf : I.Holds f) (hv : I.value f.machine.heap v) :
    I.Runs (Run.fail (.returned v)) f P := by
  refine ⟨fun hdone => (by cases hdone), fun hfailed => ?_⟩
  cases hfailed
  refine ⟨hf, .refl _, fun w hw => ?_⟩
  cases hw
  exact hv

theorem ofAction {x : Action α} (hf : I.Holds f) (h : I.Acts x f.machine P) :
    I.Runs (Exec.ofAction x) f P := by
  refine ⟨fun hdone => ?_, fun hfailed => ?_⟩
  · simp only [Exec.ofAction] at hdone
    split at hdone
    · next hx =>
      cases hdone
      obtain ⟨hm, hext, ha⟩ := h.done hx
      exact ⟨⟨hm, hf.scope.later hext⟩, hext, ha⟩
    · cases hdone
    · cases hdone
  · simp only [Exec.ofAction] at hfailed
    split at hfailed
    · cases hfailed
    · next hx =>
      cases hfailed
      obtain ⟨hm, hext, -⟩ := h.failed hx
      exact ⟨⟨hm, hf.scope.later hext⟩, hext, fun v hv => by cases hv⟩
    · cases hfailed

theorem ofLookup {lookup : Heap → Scope → Except EvalError α} (hf : I.Holds f)
    (h : ∀ a, lookup f.machine.heap f.scope = .ok a → P f.machine.heap a) :
    I.Runs (Node.ofLookup lookup) f P := by
  refine ⟨fun hdone => ?_, fun hfailed => ?_⟩
  · simp only [Node.ofLookup] at hdone
    split at hdone
    · next ha =>
      cases hdone
      exact ⟨hf, .refl _, h _ ha⟩
    · cases hdone
  · simp only [Node.ofLookup] at hfailed
    split at hfailed
    · cases hfailed
    · cases hfailed
      exact ⟨hf, .refl _, fun v hv => by cases hv⟩

theorem bindName {v : Value} (name : String) (hf : I.Holds f)
    (hv : I.value f.machine.heap v) :
    I.Runs (Exec.bindName name v) f (fun _ _ => True) := by
  refine ⟨fun hdone => ?_, fun hfailed => by cases hfailed⟩
  cases hdone
  exact ⟨⟨hf.machine, hf.scope.insert hv name⟩, .refl _, trivial⟩

theorem catchReturn {x : Exec Value} (h : I.Runs x f I.value) :
    I.Runs (Exec.catchReturn x) f I.value := by
  refine ⟨fun hdone => ?_, fun hfailed => ?_⟩
  · simp only [Exec.catchReturn] at hdone
    split at hdone
    · next hx =>
      cases hdone
      obtain ⟨hf', hext, hv⟩ := h.failed hx
      exact ⟨hf', hext, hv _ rfl⟩
    · exact h.done hdone
  · simp only [Exec.catchReturn] at hfailed
    split at hfailed
    · cases hfailed
    · exact h.failed hfailed

end Runs

/-! ## Looking up names -/

theorem value_of_follow {whole : List String} {last : String} {v w : Value}
    {rest : List String} (hm : I.machine m) (hv : I.value m.heap v)
    (h : Path.follow classes m.heap whole last v rest = .ok w) : I.value m.heap w := by
  induction rest generalizing last v with
  | nil =>
    cases h
    exact hv
  | cons field rest ih =>
    unfold Path.follow at h
    split at h
    · split at h
      · next next hnext => exact ih (I.field hm hv hnext) h
      · cases h
    · cases h

theorem value_of_resolve {path : List String} {v : Value} (hf : I.Holds f)
    (h : Path.resolve classes f.machine.heap f.scope path = .ok v) :
    I.value f.machine.heap v := by
  unfold Path.resolve at h
  split at h
  · cases h
  · split at h
    · next hfirst => exact value_of_follow hf.machine (hf.scope _ _ hfirst) h
    · cases h

theorem value_of_target {object : List String} {field : String} {a : Address}
    (hf : I.Holds f)
    (h : Path.target classes f.machine.heap f.scope object field = .ok a) :
    I.value f.machine.heap (.inst a) := by
  unfold Path.target at h
  split at h
  · cases h
  · next hobject =>
    cases h
    exact value_of_resolve hf hobject
  · cases h

/-! ## Operations -/

variable (I) in
/-- Calls keep the invariant. -/
structure Dispatches (d : Dispatch) : Prop where
  call : ∀ {m v args} name,
    I.machine m → I.value m.heap v → (∀ arg ∈ args, I.value m.heap arg) →
    I.Acts (d.call v name args) m I.value
  render : ∀ {m v}, I.machine m → I.value m.heap v →
    I.Acts (d.render v) m (fun heap text => I.value heap (.text text))

section

variable {d : Dispatch} {v w : Value}

theorem acts_mismatch (cause : String → String → EvalError) (hm : I.machine m) :
    I.Acts (Dispatch.mismatch classes cause v w : Action α) m P := .heap (.fail _ hm)

theorem acts_predicate (hd : I.Dispatches d) (name : String) (hm : I.machine m)
    (hv : I.value m.heap v) (hw : I.value m.heap w) :
    I.Acts (d.predicate classes v name w) m (fun _ _ => True) := by
  refine (hd.call name hm hv (List.forall_mem_singleton.mpr hw)).bind
    fun answer m' hm' _ _ => ?_
  split
  · exact .pure hm' trivial
  · exact .heap (.fail _ hm')

theorem acts_equal (hd : I.Dispatches d) (hm : I.machine m) (hv : I.value m.heap v)
    (hw : I.value m.heap w) :
    I.Acts (d.equal classes v w) m (fun _ _ => True) := by
  unfold Dispatch.equal
  split
  · exact .pure hm trivial
  · exact .pure hm trivial
  · exact .pure hm trivial
  · exact .pure hm trivial
  · exact acts_predicate hd _ hm hv hw
  · exact acts_mismatch _ hm

theorem acts_less (hd : I.Dispatches d) (hm : I.machine m) (hv : I.value m.heap v)
    (hw : I.value m.heap w) :
    I.Acts (d.less classes v w) m (fun _ _ => True) := by
  unfold Dispatch.less
  split
  · exact .pure hm trivial
  · exact .pure hm trivial
  · exact .pure hm trivial
  · exact .heap (.ite (fun _ => acts_predicate hd _ hm hv hw) fun _ => acts_mismatch _ hm)
  · exact acts_mismatch _ hm

theorem acts_compare (hd : I.Dispatches d) (op : Comparator) (hm : I.machine m)
    (hv : I.value m.heap v) (hw : I.value m.heap w) :
    I.Acts (d.compare classes op v w) m (fun _ _ => True) := by
  have hless : I.Acts (d.less classes v w) m (fun _ _ => True) := acts_less hd hm hv hw
  have hequal : ∀ m', I.machine m' → m.heap.Extends m'.heap →
      I.Acts (d.equal classes v w) m' (fun _ _ => True) :=
    fun m' hm' hext => acts_equal hd hm' (I.later hext hv) (I.later hext hw)
  cases op with
  | equal => exact hequal m hm (.refl _)
  | notEqual => exact (hequal m hm (.refl _)).bind fun _ _ hm' _ _ => .pure hm' trivial
  | less => exact hless
  | greaterOrEqual => exact hless.bind fun _ _ hm' _ _ => .pure hm' trivial
  | greater =>
    refine hless.bind fun _ m' hm' hext _ => .ite (fun _ => .pure hm' trivial) fun _ => ?_
    exact (hequal m' hm' hext).bind fun _ _ hm'' _ _ => .pure hm'' trivial
  | lessOrEqual =>
    exact hless.bind fun _ m' hm' hext _ =>
      .ite (fun _ => .pure hm' trivial) fun _ => hequal m' hm' hext

theorem acts_arith (hd : I.Dispatches d) (op : ArithOp) (hm : I.machine m)
    (hv : I.value m.heap v) (hw : I.value m.heap w) :
    I.Acts (d.arith classes op v w) m I.value := by
  unfold Dispatch.arith
  split
  · split
    · exact .pure hm I.number
    · exact .fail _ hm
  · exact .pure hm (I.append hv hw)
  · exact .heap (.ite (fun _ => hd.call _ hm hv (List.forall_mem_singleton.mpr hw))
      fun _ => acts_mismatch _ hm)
  · exact acts_mismatch _ hm

theorem acts_logic (op : LogicOp) (hm : I.machine m) :
    I.Acts (Dispatch.logic classes op v w) m I.value :=
  .ite (fun _ => acts_mismatch _ hm) fun _ => .pure hm I.truth

theorem acts_negate (hm : I.machine m) : I.Acts (Dispatch.negate classes v) m I.value :=
  .ite (fun _ => .heap (.fail _ hm)) fun _ => .pure hm I.truth

end

end Invariant

/-! ## Trees -/

section

open Invariant (Acts Runs value_of_resolve value_of_target acts_arith acts_logic
    acts_negate acts_compare)

variable {classes : ClassTable} {I : Invariant classes} {d : Dispatch}

mutual

/-- Code keeps an invariant if the calls it makes do. -/
theorem Node.exec_runs (hd : I.Dispatches d) :
    ∀ (n : Node), n.Constants I.Admits → ∀ {f : Frame}, I.Holds f →
    I.Runs (n.exec classes d) f I.value
  | .lit value, hn, f, hf => by
    simp only [Node.exec]
    exact .pure hf (hn _)
  | .none, _, f, hf => by
    simp only [Node.exec]
    exact .pure hf I.none
  | .path _, _, f, hf => by
    simp only [Node.exec]
    exact .ofLookup hf fun _ h => value_of_resolve hf h
  | .define cls, _, f, hf => by
    simp only [Node.exec]
    exact (Runs.bindName _ hf I.cls).bind fun _ _ hf' _ _ => .pure hf' I.cls
  | .assign name value, hn, f, hf => by
    simp only [Node.exec]
    refine (Node.exec_runs hd value hn hf).bind fun v f₁ hf₁ _ hv => ?_
    exact (Runs.bindName name hf₁ hv).bind fun _ f₂ hf₂ hext _ =>
      .pure hf₂ (I.later hext hv)
  | .setField object field value, hn, f, hf => by
    simp only [Node.exec]
    have htarget : I.Runs
        (Node.ofLookup fun heap scope => Path.target classes heap scope object field) f
          (fun heap a => I.value heap (.inst a)) :=
      .ofLookup hf fun _ h => value_of_target hf h
    refine htarget.bind fun a f₁ hf₁ _ ha =>
      (Node.exec_runs hd value hn hf₁).bind fun v f₂ hf₂ hext hv => ?_
    refine (Runs.ofAction hf₂ (.setField field hf₂.machine (I.later hext ha) hv)).bind
      fun _ f₃ hf₃ hext' _ => ?_
    exact .pure hf₃ (I.later hext' hv)
  | .arith op left right, hn, f, hf => by
    simp only [Node.exec]
    refine (Node.exec_runs hd left hn.1 hf).bind fun l f₁ hf₁ _ hl => ?_
    refine (Node.exec_runs hd right hn.2 hf₁).bind fun r f₂ hf₂ hext hr => ?_
    exact .ofAction hf₂ (acts_arith hd op hf₂.machine (I.later hext hl) hr)
  | .logic op left right, hn, f, hf => by
    simp only [Node.exec]
    refine (Node.exec_runs hd left hn.1 hf).bind fun l f₁ hf₁ _ _ => ?_
    exact (Node.exec_runs hd right hn.2 hf₁).bind fun r f₂ hf₂ _ _ =>
      .ofAction hf₂ (acts_logic op hf₂.machine)
  | .not operand, hn, f, hf => by
    simp only [Node.exec]
    exact (Node.exec_runs hd operand hn hf).bind fun v f₁ hf₁ _ _ =>
      .ofAction hf₁ (acts_negate hf₁.machine)
  | .compare op left right, hn, f, hf => by
    simp only [Node.exec]
    refine (Node.exec_runs hd left hn.1 hf).bind fun l f₁ hf₁ _ hl => ?_
    refine (Node.exec_runs hd right hn.2 hf₁).bind fun r f₂ hf₂ hext hr => ?_
    exact (Runs.ofAction hf₂ (acts_compare hd op hf₂.machine (I.later hext hl) hr)).bind
        fun _ _ hf₃ _ _ =>
      .pure hf₃ I.truth
  | .ifThen condition yes, hn, f, hf => by
    simp only [Node.exec]
    refine (Node.exec_runs hd condition hn.1 hf).bind fun v f₁ hf₁ _ _ => ?_
    exact .ite (fun _ => Node.exec_runs hd yes hn.2 hf₁) fun _ => .pure hf₁ I.none
  | .ifElse condition yes no, hn, f, hf => by
    simp only [Node.exec]
    refine (Node.exec_runs hd condition hn.1 hf).bind fun v f₁ hf₁ _ _ => ?_
    exact .ite (fun _ => Node.exec_runs hd yes hn.2.1 hf₁) fun _ =>
      Node.exec_runs hd no hn.2.2 hf₁
  | .block statements, hn, f, hf => by
    simp only [Node.exec]
    exact (Node.execAll_runs hd statements hn hf).bind fun _ _ hf₁ _ _ => .pure hf₁ I.none
  | .ret value, hn, f, hf => by
    simp only [Node.exec]
    exact (Node.exec_runs hd value hn hf).bind fun _ _ hf₁ _ hv => .returned hf₁ hv
  | .body inner, hn, f, hf => by
    simp only [Node.exec]
    exact .catchReturn (Node.exec_runs hd inner hn hf)
  | .create cls args, hn, f, hf => by
    simp only [Node.exec]
    refine (Runs.ofAction hf (.allocate cls hf.machine)).bind
      fun created f₁ hf₁ _ hcreated => ?_
    refine .ite (fun _ => ?_) fun _ => .pure hf₁ hcreated
    refine (Node.evalAll_runs hd args hn hf₁).bind fun values f₂ hf₂ hext hvalues => ?_
    have hcall := hd.call Special.init hf₂.machine (I.later hext hcreated) hvalues
    exact (Runs.ofAction hf₂ hcall).bind fun _ _ hf₃ hext' _ =>
      .pure hf₃ (I.later (hext.trans hext') hcreated)
  | .print args, hn, f, hf => by
    simp only [Node.exec]
    exact (Node.printAll_runs hd false args hn hf).bind fun _ _ hf₁ _ _ =>
      .pure hf₁ I.none
  | .str operand, hn, f, hf => by
    simp only [Node.exec]
    refine (Node.exec_runs hd operand hn hf).bind fun v f₁ hf₁ _ hv => ?_
    exact (Runs.ofAction hf₁ (hd.render hf₁.machine hv)).bind fun _ _ hf₂ _ ht =>
      .pure hf₂ ht
  | .call object method args, hn, f, hf => by
    simp only [Node.exec]
    refine (Node.exec_runs hd object hn.1 hf).bind fun receiver f₁ hf₁ _ hreceiver => ?_
    have hheap : I.Acts Action.heap f₁.machine (fun _ _ => True) :=
      .heap (.pure hf₁.machine trivial)
    refine (Runs.ofAction hf₁ hheap).bind fun _ f₂ hf₂ hext _ => ?_
    refine .ite (fun _ => ?_) fun _ => .pure hf₂ I.none
    refine (Node.evalAll_runs hd args hn.2 hf₂).bind fun values f₃ hf₃ hext' hvalues => ?_
    exact .ofAction hf₃
      (hd.call method hf₃.machine (I.later (hext.trans hext') hreceiver) hvalues)

theorem Node.execAll_runs (hd : I.Dispatches d) :
    ∀ (ns : List Node), Node.AllConstants I.Admits ns →
    ∀ {f : Frame}, I.Holds f → I.Runs (Node.execAll classes d ns) f (fun _ _ => True)
  | [], _, f, hf => by
    simp only [Node.execAll]
    exact .pure hf trivial
  | first :: rest, hn, f, hf => by
    simp only [Node.execAll]
    exact (Node.exec_runs hd first hn.1 hf).bind fun _ _ hf₁ _ _ =>
      Node.execAll_runs hd rest hn.2 hf₁

theorem Node.evalAll_runs (hd : I.Dispatches d) :
    ∀ (ns : List Node), Node.AllConstants I.Admits ns →
    ∀ {f : Frame}, I.Holds f →
      I.Runs (Node.evalAll classes d ns) f (fun heap values =>
        ∀ v ∈ values, I.value heap v)
  | [], _, f, hf => by
    simp only [Node.evalAll]
    exact .pure hf fun _ h => absurd h List.not_mem_nil
  | first :: rest, hn, f, hf => by
    simp only [Node.evalAll]
    refine (Node.exec_runs hd first hn.1 hf).bind fun v f₁ hf₁ _ hv => ?_
    refine (Node.evalAll_runs hd rest hn.2 hf₁).bind fun values f₂ hf₂ hext hvalues => ?_
    exact .pure hf₂ (List.forall_mem_cons.mpr ⟨I.later hext hv, hvalues⟩)

theorem Node.printAll_runs (hd : I.Dispatches d) : ∀ (separate : Bool) (ns : List Node),
    Node.AllConstants I.Admits ns → ∀ {f : Frame}, I.Holds f →
      I.Runs (Node.printAll classes d separate ns) f (fun _ _ => True)
  | _, [], _, f, hf => by
    simp only [Node.printAll]
    exact .ofAction hf (.write hf.machine I.lineEnd)
  | separate, first :: rest, hn, f, hf => by
    simp only [Node.printAll]
    refine (Node.exec_runs hd first hn.1 hf).bind fun v f₁ hf₁ _ hv => ?_
    have tail : ∀ f₂, I.Holds f₂ → f₁.machine.heap.Extends f₂.machine.heap → I.Runs (do
        let text ← Exec.ofAction (d.render v)
        Exec.ofAction (Action.write text)
        Node.printAll classes d true rest) f₂ (fun _ _ => True) := by
      intro f₂ hf₂ hext
      refine (Runs.ofAction hf₂ (hd.render hf₂.machine (I.later hext hv))).bind
        fun text f₃ hf₃ _ ht => ?_
      exact (Runs.ofAction hf₃ (.write hf₃.machine ht)).bind fun _ f₄ hf₄ _ _ =>
        Node.printAll_runs hd true rest hn.2 hf₄
    refine .ite (fun _ => ?_) fun _ => tail f₁ hf₁ (.refl _)
    exact (Runs.ofAction hf₁ (.write hf₁.machine I.space)).bind fun _ f₂ hf₂ hext _ =>
      tail f₂ hf₂ hext

end

end

/-! ## Calls -/

/-- Of what is bound in a row the latest counts, and then what was bound before. -/
theorem Scope.get?_foldl_insert (bindings : List (String × Value)) (scope : Scope)
    (key : String) :
    (bindings.foldl (fun scope (name, v) => scope.insert name v) scope).get? key =
      (bindings.reverse.lookup key).or (scope.get? key) := by
  induction bindings generalizing scope with
  | nil => rfl
  | cons binding rest ih =>
    obtain ⟨name, v⟩ := binding
    rw [List.foldl_cons, ih, get?_insert, List.reverse_cons, List.lookup_append,
      Option.or_assoc]
    by_cases h : key = name
    · simp [h]
    · simp [h, beq_false_of_ne h, List.lookup_cons]

/-- In a method a name means the last parameter of that name. If there is none, `self`
means the receiver, and any other name nothing. -/
theorem Method.get?_frame (method : Method) (receiver : Value) (args : List Value)
    (key : String) :
    (method.frame receiver args).get? key =
      ((method.params.zip args).reverse.lookup key).or
        (if key = receiverName then some receiver else none) := by
  rw [frame, Scope.get?_foldl_insert, Scope.get?_insert, Scope.get?_empty]

/-- A method starts with the receiver and the arguments in sight and nothing else. -/
theorem Method.eq_or_mem_of_frame {method : Method} {receiver : Value} {args : List Value}
    {name : String} {v : Value} (h : (method.frame receiver args).get? name = some v) :
    v = receiver ∨ v ∈ args := by
  rw [get?_frame] at h
  rcases Option.or_eq_some_iff.mp h with h | ⟨-, h⟩
  · obtain ⟨front, back, hbindings, -⟩ := List.lookup_eq_some_iff.mp h
    have hmem : (name, v) ∈ (method.params.zip args).reverse := by
      rw [hbindings]
      exact List.mem_append_right front List.mem_cons_self
    exact .inr (List.of_mem_zip (List.mem_reverse.mp hmem)).2
  · split at h
    · exact .inl (Option.some.inj h).symm
    · cases h

namespace Invariant

variable {classes : ClassTable} {I : Invariant classes} {d : Dispatch} {m : Machine}

variable (I) in
/-- The constants in the methods of the table are as asked. -/
def Classes : Prop :=
  ∀ i, ∀ method ∈ (classes.get i).methods, method.body.Constants I.Admits

/-- If every constant may stand in a tree, there is nothing to ask of the methods. -/
theorem classes_of_admits (h : ∀ constant, I.Admits constant) : I.Classes :=
  fun _ _ _ => Node.constants_of_forall h _

theorem binds_frame {heap : Heap} {v : Value} {args : List Value} (method : Method)
    (hv : I.value heap v) (hargs : ∀ arg ∈ args, I.value heap arg) :
    I.Binds heap (method.frame v args) := by
  intro name w hw
  rcases Method.eq_or_mem_of_frame hw with rfl | hmem
  · exact hv
  · exact hargs w hmem

theorem acts_run (hd : I.Dispatches d) {method : Method}
    (hmethod : method.body.Constants I.Admits) {v : Value}
    {args : List Value} (hm : I.machine m) (hv : I.value m.heap v)
    (hargs : ∀ arg ∈ args, I.value m.heap arg) :
    I.Acts (method.run classes d v args) m I.value := by
  have hframe : I.Holds ⟨method.frame v args, m⟩ := ⟨hm, binds_frame method hv hargs⟩
  exact (Acts.inScope (Node.exec_runs hd method.body hmethod hframe)).bind
    fun _ _ hm' _ h => .pure hm' h.1

theorem acts_methodFor {β : Type} {P : Heap → β → Prop} {v : Value} {name : String}
    {arity : Nat} {g : Method → Action β} (hm : I.machine m)
    (h : ∀ i, ∀ method ∈ (classes.get i).methods, I.Acts (g method) m P) :
    I.Acts (Run.ofExcept (v.methodFor classes m.heap name arity) >>= g) m P := by
  cases hfound : v.methodFor classes m.heap name arity with
  | ok method =>
    obtain ⟨i, hi⟩ := Value.exists_mem_of_methodFor hfound
    exact h i method hi
  | error cause =>
    show I.Acts (Run.fail cause) m P
    exact .fail cause hm

/-- Calls keep an invariant, however deep they may nest. -/
theorem dispatches_within (h : I.Classes) (fuel : Nat) :
    I.Dispatches (Dispatch.within classes fuel) := by
  induction fuel with
  | zero =>
    refine ⟨fun name hm _ _ => ?_, fun hm hv => ?_⟩
    · simp only [Dispatch.within, callMethod]
      exact .heap (acts_methodFor hm fun _ _ _ => .starve)
    · simp only [Dispatch.within, renderValue]
      exact .heap (.ite (fun _ => .starve) fun _ => .pure hm (I.plainText hm hv))
  | succ fuel ih =>
    refine ⟨fun name hm hv hargs => ?_, fun hm hv => ?_⟩
    · simp only [Dispatch.within, callMethod]
      exact .heap (acts_methodFor hm fun i method hi =>
        acts_run ih (h i method hi) hm hv hargs)
    · simp only [Dispatch.within, renderValue]
      refine .heap (.ite (fun _ => ?_) fun _ => .pure hm (I.plainText hm hv))
      exact (ih.call Special.str hm hv (fun _ h => absurd h List.not_mem_nil)).bind
          fun result m' hm' _ hresult =>
        ih.render hm' hresult

end Invariant

/-! ## Growth of a run -/

/-- The invariant that asks for nothing. What it leaves to say is that the heap grows. -/
def Invariant.unconditional (classes : ClassTable) : Invariant classes where
  value _ _ := True
  machine _ := True
  later _ _ := trivial
  none := trivial
  truth := trivial
  number := trivial
  cls := trivial
  space := trivial
  lineEnd := trivial
  append _ _ := trivial
  plainText _ _ := trivial
  field _ _ _ := trivial
  allocate _ _ := ⟨trivial, trivial⟩
  setField _ _ _ _ := trivial
  write _ _ := trivial

section

variable {classes : ClassTable} {fuel : Nat} {f f' : Frame}

theorem Invariant.admits_unconditional (classes : ClassTable) (constant : Literal) :
    (unconditional classes).Admits constant := fun _ => trivial

theorem Invariant.dispatches_unconditional (classes : ClassTable) (fuel : Nat) :
    (unconditional classes).Dispatches (Dispatch.within classes fuel) :=
  dispatches_within (classes_of_admits (admits_unconditional classes)) fuel

theorem Invariant.holds_unconditional (f : Frame) : (unconditional classes).Holds f :=
  ⟨trivial, fun _ _ _ => trivial⟩

theorem Node.exec_extends {node : Node} {v : Value}
    (h : node.exec classes (Dispatch.within classes fuel) f = .done (v, f')) :
    f.machine.heap.Extends f'.machine.heap := by
  have hnode := Node.constants_of_forall (Invariant.admits_unconditional classes) node
  exact ((Node.exec_runs (Invariant.dispatches_unconditional classes fuel) node hnode
    (Invariant.holds_unconditional f)).done h).2.1

theorem Node.evalAll_extends {args : List Node} {values : List Value}
    (h : Node.evalAll classes (Dispatch.within classes fuel) args f =
      .done (values, f')) :
    f.machine.heap.Extends f'.machine.heap := by
  have hargs := Node.allConstants_of_forall (Invariant.admits_unconditional classes) args
  exact ((Node.evalAll_runs (Invariant.dispatches_unconditional classes fuel) args hargs
    (Invariant.holds_unconditional f)).done h).2.1

theorem Exec.call_extends {receiver v : Value} {method : String} {args : List Value}
    (h : Exec.ofAction ((Dispatch.within classes fuel).call receiver method args) f =
      .done (v, f')) :
    f.machine.heap.Extends f'.machine.heap := by
  have hcall := (Invariant.dispatches_unconditional classes fuel).call method
    (m := f.machine) (v := receiver) trivial trivial fun arg (_ : arg ∈ args) => trivial
  exact ((Invariant.Runs.ofAction (Invariant.holds_unconditional f) hcall).done h).2.1

end

end Mint
