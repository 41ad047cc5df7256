import Mathlib.Logic.Relation
import Mathlib.Data.Prod.Lex
import Mint.Proofs.Eval.Invariant

/-!
# What goes on inside a run

`Node.exec` says how a run ends and not what happens on the way. An `Activity` is one
thing that the evaluator does: it executes a node in a frame, calls a method, renders a
value. `Activity.Part` relates an activity to those that it is directly made of, each in
the state in which it is started. So what a run contains, at any depth of calls, is what
its activity is made of in any number of steps.

Two kinds of endings are never the doing of the operations of the language: a call that
finds no method, and a call for which no fuel is left (`Ending.OfCall`). Where a run
ends so, a part of it does, down to a call that finds no method or has no fuel
(`Activity.exists_origin`).
-/

namespace Mint

/-- Something that the evaluator does from some state on, with calls nesting at most
`fuel` deep. -/
inductive Activity where
  | node (fuel : Nat) (frame : Frame) (node : Node)
  | statements (fuel : Nat) (frame : Frame) (nodes : List Node)
  | arguments (fuel : Nat) (frame : Frame) (nodes : List Node)
  | printing (fuel : Nat) (frame : Frame) (separate : Bool) (nodes : List Node)
  | call (fuel : Nat) (machine : Machine) (receiver : Value) (method : String)
    (args : List Value)
  | render (fuel : Nat) (machine : Machine) (value : Value)

namespace Node

/-- The child that a node starts with, in the frame of the node. -/
def first? : Node → Option Node
  | .assign _ value | .not value | .str value | .ret value | .body value => some value
  | .arith _ left _ | .logic _ left _ | .compare _ left _ => some left
  | .ifThen condition _ | .ifElse condition _ _ => some condition
  | .call object _ _ => some object
  | _ => Option.none

/-- The operands of an operator. -/
def operands? : Node → Option (Node × Node)
  | .arith _ left right | .logic _ left right | .compare _ left right =>
    some (left, right)
  | _ => Option.none

theorem sizeOf_first? {n child : Node} (h : n.first? = some child) :
    sizeOf child < sizeOf n := by
  cases n <;> cases h <;> simp <;> omega

theorem sizeOf_operands? {n left right : Node} (h : n.operands? = some (left, right)) :
    sizeOf right < sizeOf n := by
  cases n <;> cases h <;> simp only [arith.sizeOf_spec, logic.sizeOf_spec,
    compare.sizeOf_spec] <;> omega

end Node

/-- The frame after an instance has been added. -/
def Frame.allocate (f : Frame) (cls : ClassId) : Frame :=
  { f with machine := { f.machine with heap := f.machine.heap.allocate cls } }

/-- The comparison of `l` and `r`, on the machine `m`, calls a method of `l` with the
argument `r` on a machine. -/
inductive Comparator.Calls (classes : ClassTable) (d : Dispatch) (l r : Value)
    (m : Machine) :
    Comparator → Machine → String → Prop where
  | less {op} (hop : op ≠ .equal ∧ op ≠ .notEqual)
    (hmethod : l.understands classes m.heap Special.lt 1 = true) :
    Calls classes d l r m op m Special.lt
  | equal {op a b} (hop : op = .equal ∨ op = .notEqual) (hl : l = .inst a)
    (hr : r = .inst b) :
    Calls classes d l r m op m Special.eq
  /-- Equality is asked for after order has answered no. -/
  | notLess {op a b m'} (hop : op = .greater ∨ op = .lessOrEqual) (hl : l = .inst a)
    (hr : r = .inst b) (hanswer : d.less classes l r m = .done (false, m')) :
    Calls classes d l r m op m' Special.eq

/-! ## Parts -/

section

variable (classes : ClassTable)

/-- The first activity is directly made of the second, among others. -/
inductive Activity.Part : Activity → Activity → Prop where
  | first {fuel f n child} (hn : n.first? = some child) :
    Part (.node fuel f n) (.node fuel f child)
  | second {fuel f n left right l g} (hn : n.operands? = some (left, right))
    (hleft : left.exec classes (.within classes fuel) f = .done (l, g)) :
    Part (.node fuel f n) (.node fuel g right)
  | stored {fuel f object field value a}
    (htarget : Path.target classes f.machine.heap f.scope object field = .ok a) :
    Part (.node fuel f (.setField object field value)) (.node fuel f value)
  | yes {fuel f condition yes v g}
    (hcondition : condition.exec classes (.within classes fuel) f = .done (v, g))
    (hv : v.isTrue = true) :
    Part (.node fuel f (.ifThen condition yes)) (.node fuel g yes)
  | either {fuel f condition yes no v g}
    (hcondition : condition.exec classes (.within classes fuel) f = .done (v, g)) :
    Part (.node fuel f (.ifElse condition yes no))
    (.node fuel g (if v.isTrue then yes else no))
  | block {fuel f nodes} : Part (.node fuel f (.block nodes)) (.statements fuel f nodes)
  | print {fuel f args} : Part (.node fuel f (.print args)) (.printing fuel f false args)
  | str {fuel f operand v g}
    (hoperand : operand.exec classes (.within classes fuel) f = .done (v, g)) :
    Part (.node fuel f (.str operand)) (.render fuel g.machine v)
  | add {fuel f left right a r g h}
    (hleft : left.exec classes (.within classes fuel) f = .done (.inst a, g))
    (hright : right.exec classes (.within classes fuel) g = .done (r, h)) (hr : r ≠ .none)
    (hmethod : (Value.inst a).understands classes h.machine.heap Special.add 1 = true) :
    Part (.node fuel f (.arith .add left right))
    (.call fuel h.machine (.inst a) Special.add [r])
  | compare {fuel f op left right l r g h m name}
    (hleft : left.exec classes (.within classes fuel) f = .done (l, g))
    (hright : right.exec classes (.within classes fuel) g = .done (r, h))
    (hcalls : op.Calls classes (.within classes fuel) l r h.machine m name) :
    Part (.node fuel f (.compare op left right)) (.call fuel m l name [r])
  | initArguments {fuel f cls args}
    (hmethod : classes.hasMethod cls Special.init args.length = true) :
    Part (.node fuel f (.create cls args)) (.arguments fuel (f.allocate cls) args)
  | init {fuel f cls args values g}
    (hmethod : classes.hasMethod cls Special.init args.length = true)
    (hargs : Node.evalAll classes (.within classes fuel) args (f.allocate cls) =
      .done (values, g)) :
    Part (.node fuel f (.create cls args))
    (.call fuel g.machine (.inst f.machine.heap.size) Special.init values)
  | callArguments {fuel f object method args receiver g}
    (hobject : object.exec classes (.within classes fuel) f = .done (receiver, g))
    (hmethod : receiver.understands classes g.machine.heap method args.length = true) :
    Part (.node fuel f (.call object method args)) (.arguments fuel g args)
  | call {fuel f object method args receiver values g h}
    (hobject : object.exec classes (.within classes fuel) f = .done (receiver, g))
    (hmethod : receiver.understands classes g.machine.heap method args.length = true)
    (hargs : Node.evalAll classes (.within classes fuel) args g = .done (values, h)) :
    Part (.node fuel f (.call object method args))
    (.call fuel h.machine receiver method values)
  | firstStatement {fuel f n ns} : Part (.statements fuel f (n :: ns)) (.node fuel f n)
  | laterStatements {fuel f n ns v g}
    (hfirst : n.exec classes (.within classes fuel) f = .done (v, g)) :
    Part (.statements fuel f (n :: ns)) (.statements fuel g ns)
  | firstArgument {fuel f n ns} : Part (.arguments fuel f (n :: ns)) (.node fuel f n)
  | laterArguments {fuel f n ns v g}
    (hfirst : n.exec classes (.within classes fuel) f = .done (v, g)) :
    Part (.arguments fuel f (n :: ns)) (.arguments fuel g ns)
  | firstPrinted {fuel f separate n ns} :
    Part (.printing fuel f separate (n :: ns)) (.node fuel f n)
  | rendered {fuel f separate n ns v g m}
    (hfirst : n.exec classes (.within classes fuel) f = .done (v, g))
    (hspace : (if separate then Action.write " " else pure ()) g.machine =
      .done ((), m)) :
    Part (.printing fuel f separate (n :: ns)) (.render fuel m v)
  | laterPrinted {fuel f separate n ns v g m text m' m''}
    (hfirst : n.exec classes (.within classes fuel) f = .done (v, g))
    (hspace : (if separate then Action.write " " else pure ()) g.machine = .done ((), m))
    (htext : renderValue classes fuel v m = .done (text, m'))
    (hwrite : Action.write text m' = .done ((), m'')) :
    Part (.printing fuel f separate (n :: ns)) (.printing fuel ⟨g.scope, m''⟩ true ns)
  | body {fuel m receiver name args method}
    (hmethod : receiver.methodFor classes m.heap name args.length = .ok method) :
    Part (.call (fuel + 1) m receiver name args)
    (.node fuel ⟨method.frame receiver args, m⟩ method.body)
  | text {fuel m v} (hmethod : v.understands classes m.heap Special.str 0 = true) :
    Part (.render (fuel + 1) m v) (.call fuel m v Special.str [])
  | textAgain {fuel m v result m'}
    (hmethod : v.understands classes m.heap Special.str 0 = true)
    (hcall : callMethod classes fuel v Special.str [] m = .done (result, m')) :
    Part (.render (fuel + 1) m v) (.render fuel m' result)

/-- The second activity goes on inside the first, at any depth. -/
def Activity.Contains : Activity → Activity → Prop := Relation.ReflTransGen (Part classes)

end

/-! ## Endings -/

/-- How something ends, whatever its value. -/
abbrev Ending := Outcome (Signal × Machine) Machine

/-- How a run ends, told by what it leaves of the machine. -/
def Run.ending {ε σ α : Type} (signal : ε → Signal) (machine : σ → Machine)
    (x : Run ε σ α) (s : σ) : Ending :=
  match x s with
  | .done (_, s') => .done (machine s')
  | .failed (e, s') => .failed (signal e, machine s')
  | .starved => .starved

/-- How an action ends. -/
abbrev Action.ending {α : Type} (x : Action α) (m : Machine) : Ending :=
  Run.ending .error id x m

/-- How code in a scope ends. -/
abbrev Exec.ending {α : Type} (x : Exec α) (f : Frame) : Ending :=
  Run.ending id Frame.machine x f

/-- How the activity ends. -/
def Activity.ending (classes : ClassTable) : Activity → Ending
  | .node fuel f n => Exec.ending (n.exec classes (.within classes fuel)) f
  | .statements fuel f ns =>
    Exec.ending (Node.execAll classes (.within classes fuel) ns) f
  | .arguments fuel f ns => Exec.ending (Node.evalAll classes (.within classes fuel) ns) f
  | .printing fuel f separate ns =>
    Exec.ending (Node.printAll classes (.within classes fuel) separate ns) f
  | .call fuel m receiver method args =>
    Action.ending (callMethod classes fuel receiver method args) m
  | .render fuel m v => Action.ending (renderValue classes fuel v) m

/-- The causes for which a call finds no method. -/
def EvalError.isOfCall : EvalError → Bool
  | .noSuchMethod _ _ _ | .notAnInstance _ _ => true
  | _ => false

/-- Only calls end so: no method is found, or no fuel is left. -/
inductive Ending.OfCall : Ending → Prop where
  | failed {cause m} (h : cause.isOfCall = true) : OfCall (.failed (.error cause, m))
  | starved : OfCall .starved

/-- The activity ends so by its own doing. -/
inductive Activity.Raises (classes : ClassTable) : Activity → Ending → Prop where
  | missing {fuel m receiver name args cause}
    (h : receiver.methodFor classes m.heap name args.length = .error cause) :
    Raises classes (.call fuel m receiver name args) (.failed (.error cause, m))
  | tooDeep {m receiver name args method}
    (h : receiver.methodFor classes m.heap name args.length = .ok method) :
    Raises classes (.call 0 m receiver name args) .starved
  | tooDeepText {m v} (h : v.understands classes m.heap Special.str 0 = true) :
    Raises classes (.render 0 m v) .starved

section

variable {α β : Type} {e : Ending}

/-- A sequence ends as one of its two parts does. -/
theorem Run.ending_bind {ε σ : Type} {signal : ε → Signal} {machine : σ → Machine}
    {x : Run ε σ α} {g : α → Run ε σ β} {s : σ}
    (h : Run.ending signal machine (x >>= g) s = e) :
    Run.ending signal machine x s = e ∨
    ∃ a s', x s = .done (a, s') ∧ Run.ending signal machine (g a) s' = e := by
  cases hx : x s with
  | done r =>
    rw [Run.ending, Run.bind_done hx] at h
    exact .inr ⟨r.1, r.2, rfl, h⟩
  | failed r =>
    rw [Run.ending, Run.bind_failed hx] at h
    exact .inl (by rw [Run.ending, hx]; exact h)
  | starved =>
    rw [Run.ending, Run.bind_starved hx] at h
    exact .inl (by rw [Run.ending, hx]; exact h)

theorem Action.ending_bind {x : Action α} {g : α → Action β} {m : Machine}
    (h : Action.ending (x >>= g) m = e) :
    Action.ending x m = e ∨ ∃ a m', x m = .done (a, m') ∧ Action.ending (g a) m' = e :=
  Run.ending_bind h

theorem Action.ending_heap (g : Heap → Action α) (m : Machine) :
    Action.ending (Action.heap >>= g) m = Action.ending (g m.heap) m := rfl

theorem Exec.ending_bind {x : Exec α} {g : α → Exec β} {f : Frame}
    (h : Exec.ending (x >>= g) f = e) :
    Exec.ending x f = e ∨ ∃ a f', x f = .done (a, f') ∧ Exec.ending (g a) f' = e :=
  Run.ending_bind h

theorem Exec.ending_ofAction (x : Action α) (f : Frame) :
    Exec.ending (Exec.ofAction x) f = Action.ending x f.machine := by
  rw [Exec.ending, Action.ending, Run.ending, Run.ending, Exec.ofAction]
  cases x f.machine <;> rfl

theorem Exec.done_of_ofAction {x : Action α} {f g : Frame} {a : α}
    (h : Exec.ofAction x f = .done (a, g)) :
    x f.machine = .done (a, g.machine) ∧ g.scope = f.scope := by
  rw [Exec.ofAction] at h
  split at h
  · next hx =>
    cases h
    exact ⟨hx, rfl⟩
  · cases h
  · cases h

theorem Node.done_of_ofLookup {lookup : Heap → Scope → Except EvalError α}
    {f g : Frame} {a : α} (h : Node.ofLookup lookup f = .done (a, g)) :
    lookup f.machine.heap f.scope = .ok a ∧ f = g := by
  rw [Node.ofLookup] at h
  split at h
  · next ha =>
    cases h
    exact ⟨ha, rfl⟩
  · cases h

namespace Ending.OfCall

theorem not_done (he : e.OfCall) {m : Machine} : Outcome.done m ≠ e := by
  rintro rfl
  cases he

theorem not_fail (he : e.OfCall) {cause : EvalError} (h : cause.isOfCall = false)
    {m : Machine} :
    Outcome.failed (.error cause, m) ≠ e := by
  rintro rfl
  cases he with
  | failed hcause =>
    rw [h] at hcause
    cases hcause

/-- A `return` that is stopped is no such ending. -/
theorem of_catchReturn (he : e.OfCall) {x : Exec Value} {f : Frame}
    (h : Exec.ending (Exec.catchReturn x) f = e) :
    Exec.ending x f = e := by
  rw [Exec.ending, Run.ending, Exec.catchReturn] at h
  rw [Exec.ending, Run.ending]
  split at h
  · next hx =>
    split at hx
    · exact absurd h he.not_done
    · rw [hx]
      exact h
  · next hx =>
    split at hx
    · cases hx
    · rw [hx]
      exact h
  · next hx =>
    split at hx
    · cases hx
    · rw [hx]
      exact h

/-- Nor is a `return` that comes out of a method. -/
theorem of_inScope (he : e.OfCall) {x : Exec α} {scope : Scope} {m : Machine}
    (h : Action.ending (Exec.inScope scope x) m = e) : Exec.ending x ⟨scope, m⟩ = e := by
  rw [Action.ending, Run.ending, Exec.inScope] at h
  rw [Exec.ending, Run.ending]
  cases hx : x ⟨scope, m⟩ with
  | done r =>
    rw [hx] at h
    exact absurd h he.not_done
  | failed r =>
    obtain ⟨signal, f⟩ := r
    rw [hx] at h
    cases signal with
    | returned v => exact absurd h (he.not_fail rfl)
    | error cause => exact h
  | starved =>
    rw [hx] at h
    exact h

theorem of_run (he : e.OfCall) {classes : ClassTable} {d : Dispatch} {method : Method}
    {receiver : Value} {args : List Value} {m : Machine}
    (h : Action.ending (method.run classes d receiver args) m = e) :
    Exec.ending (method.body.exec classes d) ⟨method.frame receiver args, m⟩ = e := by
  rcases Action.ending_bind h with h | ⟨r, m', -, h⟩
  · exact he.of_inScope h
  · exact absurd h he.not_done

theorem not_returned (he : e.OfCall) {v : Value} {m : Machine} :
    Outcome.failed (.returned v, m) ≠ e := by
  rintro rfl
  cases he

/-- A dotted name that leads nowhere does not end so. -/
theorem not_ofLookup (he : e.OfCall) {lookup : Heap → Scope → Except EvalError α}
    {f : Frame} (hlookup : ∀ cause,
      lookup f.machine.heap f.scope = .error cause → cause.isLookup = true) :
    Exec.ending (Node.ofLookup lookup) f ≠ e := by
  rw [Exec.ending, Run.ending, Node.ofLookup]
  cases hl : lookup f.machine.heap f.scope with
  | ok a => exact he.not_done
  | error cause =>
    refine he.not_fail ?_
    cases cause with
    | noSuchMethod | notAnInstance => cases hlookup _ hl
    | _ => rfl

/-- Writing does not end so. -/
theorem not_write (he : e.OfCall) {text : String} {m : Machine} :
    Action.ending (Action.write text) m ≠ e := by
  rw [Action.ending, Run.ending, Action.write]
  rcases m.sink.write text.toUTF8 with ⟨fault, sink⟩
  cases fault with
  | none => exact he.not_done
  | some fault => exact he.not_fail rfl

/-- Nor does flushing. -/
theorem not_flush (he : e.OfCall) {m : Machine} : Action.ending Action.flush m ≠ e := by
  rw [Action.ending, Run.ending, Action.flush]
  rcases m.sink.flush with ⟨fault, sink⟩
  cases fault with
  | none => exact he.not_done
  | some fault => exact he.not_fail rfl

/-- A program ends so as its body does. -/
theorem of_program_run (he : e.OfCall) {program : Program} {fuel : Nat} {m : Machine}
    (h : Action.ending (program.run fuel) m = e) :
    (Activity.node fuel ⟨∅, m⟩ program.body).ending program.classes = e := by
  rcases Action.ending_bind h with h | ⟨r, m', -, h⟩
  · exact he.of_inScope h
  · rcases Action.ending_bind h with h | ⟨_, m'', -, h⟩
    · exact absurd h he.not_flush
    · exact absurd h he.not_done

end Ending.OfCall

end

/-! ## Operations -/

section

variable {classes : ClassTable} {d : Dispatch} {e : Ending} {m : Machine} {l r : Value}

namespace Ending.OfCall

theorem not_mismatch (he : e.OfCall) {α : Type} {cause : String → String → EvalError}
    (hcause : ∀ s t, (cause s t).isOfCall = false) :
    Action.ending (Dispatch.mismatch classes cause l r : Action α) m ≠ e :=
  he.not_fail (hcause _ _)

theorem of_predicate (he : e.OfCall) {method : String}
    (h : Action.ending (d.predicate classes l method r) m = e) :
    Action.ending (d.call l method [r]) m = e := by
  rcases Action.ending_bind h with h | ⟨answer, m', -, h⟩
  · exact h
  · split at h
    · exact absurd h he.not_done
    · exact absurd h (he.not_fail rfl)

/-- Equality ends so if it calls a method that does. -/
theorem of_equal (he : e.OfCall) (h : Action.ending (d.equal classes l r) m = e) :
    ∃ a b, l = .inst a ∧ r = .inst b ∧ Action.ending (d.call l Special.eq [r]) m = e := by
  unfold Dispatch.equal at h
  split at h
  · exact absurd h he.not_done
  · exact absurd h he.not_done
  · exact absurd h he.not_done
  · exact absurd h he.not_done
  · exact ⟨_, _, rfl, rfl, he.of_predicate h⟩
  · exact absurd h (he.not_mismatch fun _ _ => rfl)

/-- Order ends so if it calls a method that does. -/
theorem of_less (he : e.OfCall) (h : Action.ending (d.less classes l r) m = e) :
    ∃ a, l = .inst a ∧ l.understands classes m.heap Special.lt 1 = true ∧
      Action.ending (d.call l Special.lt [r]) m = e := by
  unfold Dispatch.less at h
  split at h
  · exact absurd h he.not_done
  · exact absurd h he.not_done
  · exact absurd h he.not_done
  · rcases Action.ending_bind h with h | ⟨heap, m', hheap, h⟩
    · exact absurd h he.not_done
    · cases hheap
      split at h
      · next hmethod => exact ⟨_, rfl, hmethod, he.of_predicate h⟩
      · exact absurd h (he.not_mismatch fun _ _ => rfl)
  · exact absurd h (he.not_mismatch fun _ _ => rfl)

theorem of_arith (he : e.OfCall) {op : ArithOp}
    (h : Action.ending (d.arith classes op l r) m = e) :
    ∃ a, op = .add ∧ l = .inst a ∧ r ≠ .none ∧
      l.understands classes m.heap Special.add 1 = true ∧
      Action.ending (d.call l Special.add [r]) m = e := by
  unfold Dispatch.arith at h
  split at h
  · split at h
    · exact absurd h he.not_done
    · exact absurd h (he.not_fail rfl)
  · exact absurd h he.not_done
  · rcases Action.ending_bind h with h | ⟨heap, m', hheap, h⟩
    · exact absurd h he.not_done
    · cases hheap
      split at h
      · next hmethod => exact ⟨_, rfl, rfl, hmethod.1, hmethod.2, h⟩
      · exact absurd h (he.not_mismatch fun _ _ => rfl)
  · exact absurd h (he.not_mismatch fun _ _ => rfl)

theorem not_logic (he : e.OfCall) {op : LogicOp} :
    Action.ending (Dispatch.logic classes op l r) m ≠ e := by
  unfold Dispatch.logic
  split
  · exact he.not_mismatch fun _ _ => rfl
  · exact he.not_done

theorem not_negate (he : e.OfCall) : Action.ending (Dispatch.negate classes l) m ≠ e := by
  unfold Dispatch.negate
  split
  · exact he.not_fail rfl
  · exact he.not_done

end Ending.OfCall

/-- A comparison ends so if it calls a method that does. -/
theorem Ending.OfCall.of_compare (he : e.OfCall) {op : Comparator}
    (h : Action.ending (d.compare classes op l r) m = e) :
    ∃ m' name,
      op.Calls classes d l r m m' name ∧ Action.ending (d.call l name [r]) m' = e := by
  have hless : op ≠ .equal ∧ op ≠ .notEqual → Action.ending (d.less classes l r) m = e →
      ∃ m' name,
        op.Calls classes d l r m m' name ∧ Action.ending (d.call l name [r]) m' = e := by
    intro hop h
    obtain ⟨a, rfl, hmethod, h⟩ := he.of_less h
    exact ⟨m, Special.lt, .less hop hmethod, h⟩
  have hequal : op = .equal ∨ op = .notEqual → Action.ending (d.equal classes l r) m = e →
      ∃ m' name,
        op.Calls classes d l r m m' name ∧ Action.ending (d.call l name [r]) m' = e := by
    intro hop h
    obtain ⟨a, b, hl, hr, h⟩ := he.of_equal h
    exact ⟨m, Special.eq, .equal hop hl hr, h⟩
  have hnotLess :
      ∀ m', op = .greater ∨ op = .lessOrEqual → d.less classes l r m = .done (false, m') →
      Action.ending (d.equal classes l r) m' = e →
      ∃ m' name,
        op.Calls classes d l r m m' name ∧ Action.ending (d.call l name [r]) m' = e := by
    intro m' hop hanswer h
    obtain ⟨a, b, hl, hr, h⟩ := he.of_equal h
    exact ⟨m', Special.eq, .notLess hop hl hr hanswer, h⟩
  cases op with
  | equal => exact hequal (.inl rfl) h
  | notEqual =>
    rcases Action.ending_bind h with h | ⟨answer, m', -, h⟩
    · exact hequal (.inr rfl) h
    · exact absurd h he.not_done
  | less => exact hless (by decide) h
  | greaterOrEqual =>
    rcases Action.ending_bind h with h | ⟨answer, m', -, h⟩
    · exact hless (by decide) h
    · exact absurd h he.not_done
  | greater =>
    rcases Action.ending_bind h with h | ⟨answer, m', hanswer, h⟩
    · exact hless (by decide) h
    · cases answer with
      | true => exact absurd h he.not_done
      | false =>
        rcases Action.ending_bind h with h | ⟨answer, m'', -, h⟩
        · exact hnotLess m' (.inl rfl) hanswer h
        · exact absurd h he.not_done
  | lessOrEqual =>
    rcases Action.ending_bind h with h | ⟨answer, m', hanswer, h⟩
    · exact hless (by decide) h
    · cases answer with
      | true => exact absurd h he.not_done
      | false => exact hnotLess m' (.inr rfl) hanswer h

end

/-! ## Where an ending comes from -/

variable {classes : ClassTable} {fuel : Nat} {e : Ending} {f : Frame} {m : Machine}

namespace Activity

variable (classes) in
/-- Something that the activity is directly made of ends so, or the activity does by its
own doing. -/
def Passes (A : Activity) (e : Ending) : Prop :=
  (∃ B, Part classes A B ∧ B.ending classes = e) ∨ A.Raises classes e

theorem passes_of_part {A B : Activity} (hpart : Part classes A B)
    (h : B.ending classes = e) : A.Passes classes e :=
  .inl ⟨B, hpart, h⟩

theorem passes_node (he : e.OfCall) {n : Node}
    (h : (Activity.node fuel f n).ending classes = e) :
    (Activity.node fuel f n).Passes classes e := by
  rw [Activity.ending] at h
  cases n with
  | lit | none | define =>
    rw [Node.exec] at h
    exact absurd h he.not_done
  | path segments =>
    rw [Node.exec] at h
    exact absurd h (he.not_ofLookup fun _ => Path.isLookup_of_resolve)
  | assign name value =>
    rw [Node.exec] at h
    rcases Exec.ending_bind h with h | ⟨v, g, -, h⟩
    · exact passes_of_part (.first rfl) h
    · exact absurd h he.not_done
  | setField object field value =>
    rw [Node.exec] at h
    rcases Exec.ending_bind h with h | ⟨a, g, ha, h⟩
    · exact absurd h (he.not_ofLookup fun _ => Path.isLookup_of_target)
    · obtain ⟨htarget, rfl⟩ := Node.done_of_ofLookup ha
      rcases Exec.ending_bind h with h | ⟨v, g, -, h⟩
      · exact passes_of_part (.stored htarget) h
      · exact absurd h he.not_done
  | arith op left right =>
    rw [Node.exec] at h
    rcases Exec.ending_bind h with h | ⟨l, g, hl, h⟩
    · exact passes_of_part (.first rfl) h
    · rcases Exec.ending_bind h with h | ⟨r, g', hr, h⟩
      · exact passes_of_part (.second rfl hl) h
      · rw [Exec.ending_ofAction] at h
        obtain ⟨a, rfl, rfl, hne, hmethod, h⟩ := he.of_arith h
        exact passes_of_part (.add hl hr hne hmethod) h
  | logic op left right =>
    rw [Node.exec] at h
    rcases Exec.ending_bind h with h | ⟨l, g, hl, h⟩
    · exact passes_of_part (.first rfl) h
    · rcases Exec.ending_bind h with h | ⟨r, g', hr, h⟩
      · exact passes_of_part (.second rfl hl) h
      · rw [Exec.ending_ofAction] at h
        exact absurd h he.not_logic
  | not operand =>
    rw [Node.exec] at h
    rcases Exec.ending_bind h with h | ⟨v, g, -, h⟩
    · exact passes_of_part (.first rfl) h
    · rw [Exec.ending_ofAction] at h
      exact absurd h he.not_negate
  | compare op left right =>
    rw [Node.exec] at h
    rcases Exec.ending_bind h with h | ⟨l, g, hl, h⟩
    · exact passes_of_part (.first rfl) h
    · rcases Exec.ending_bind h with h | ⟨r, g', hr, h⟩
      · exact passes_of_part (.second rfl hl) h
      · rcases Exec.ending_bind h with h | ⟨answer, g'', -, h⟩
        · rw [Exec.ending_ofAction] at h
          obtain ⟨m, name, hcalls, h⟩ := he.of_compare h
          exact passes_of_part (.compare hl hr hcalls) h
        · exact absurd h he.not_done
  | ifThen condition yes =>
    rw [Node.exec] at h
    rcases Exec.ending_bind h with h | ⟨v, g, hv, h⟩
    · exact passes_of_part (.first rfl) h
    · split at h
      · next htrue => exact passes_of_part (.yes hv htrue) h
      · exact absurd h he.not_done
  | ifElse condition yes no =>
    rw [Node.exec] at h
    rcases Exec.ending_bind h with h | ⟨v, g, hv, h⟩
    · exact passes_of_part (.first rfl) h
    · refine passes_of_part (.either hv) ?_
      rw [Activity.ending]
      split at h
      · next htrue => rwa [if_pos htrue]
      · next htrue => rwa [if_neg htrue]
  | block nodes =>
    rw [Node.exec] at h
    rcases Exec.ending_bind h with h | ⟨-, g, -, h⟩
    · exact passes_of_part .block h
    · exact absurd h he.not_done
  | ret value =>
    rw [Node.exec] at h
    rcases Exec.ending_bind h with h | ⟨v, g, -, h⟩
    · exact passes_of_part (.first rfl) h
    · exact absurd h he.not_returned
  | body inner =>
    rw [Node.exec] at h
    exact passes_of_part (.first rfl) (he.of_catchReturn h)
  | create cls args =>
    rw [Node.exec] at h
    rcases Exec.ending_bind h with h | ⟨created, g, hcreated, h⟩
    · exact absurd h he.not_done
    · cases hcreated
      split at h
      · next hmethod =>
        rcases Exec.ending_bind h with h | ⟨values, g, hvalues, h⟩
        · exact passes_of_part (.initArguments hmethod) h
        · rcases Exec.ending_bind h with h | ⟨v, g', -, h⟩
          · rw [Exec.ending_ofAction] at h
            exact passes_of_part (.init hmethod hvalues) h
          · exact absurd h he.not_done
      · exact absurd h he.not_done
  | print args =>
    rw [Node.exec] at h
    rcases Exec.ending_bind h with h | ⟨-, g, -, h⟩
    · exact passes_of_part .print h
    · exact absurd h he.not_done
  | str operand =>
    rw [Node.exec] at h
    rcases Exec.ending_bind h with h | ⟨v, g, hv, h⟩
    · exact passes_of_part (.first rfl) h
    · rcases Exec.ending_bind h with h | ⟨text, g', -, h⟩
      · rw [Exec.ending_ofAction] at h
        exact passes_of_part (.str hv) h
      · exact absurd h he.not_done
  | call object method args =>
    rw [Node.exec] at h
    rcases Exec.ending_bind h with h | ⟨receiver, g, hreceiver, h⟩
    · exact passes_of_part (.first rfl) h
    · rcases Exec.ending_bind h with h | ⟨heap, g', hheap, h⟩
      · exact absurd h he.not_done
      · cases hheap
        split at h
        · next hmethod =>
          rcases Exec.ending_bind h with h | ⟨values, g', hvalues, h⟩
          · exact passes_of_part (.callArguments hreceiver hmethod) h
          · rw [Exec.ending_ofAction] at h
            exact passes_of_part (.call hreceiver hmethod hvalues) h
        · exact absurd h he.not_done

theorem passes_statements (he : e.OfCall) {ns : List Node}
    (h : (statements fuel f ns).ending classes = e) :
    (statements fuel f ns).Passes classes e := by
  rw [Activity.ending] at h
  cases ns with
  | nil =>
    rw [Node.execAll] at h
    exact absurd h he.not_done
  | cons n ns =>
    rw [Node.execAll] at h
    rcases Exec.ending_bind h with h | ⟨v, g, hv, h⟩
    · exact passes_of_part .firstStatement h
    · exact passes_of_part (.laterStatements hv) h

theorem passes_arguments (he : e.OfCall) {ns : List Node}
    (h : (arguments fuel f ns).ending classes = e) :
    (arguments fuel f ns).Passes classes e := by
  rw [Activity.ending] at h
  cases ns with
  | nil =>
    rw [Node.evalAll] at h
    exact absurd h he.not_done
  | cons n ns =>
    rw [Node.evalAll] at h
    rcases Exec.ending_bind h with h | ⟨v, g, hv, h⟩
    · exact passes_of_part .firstArgument h
    · rcases Exec.ending_bind h with h | ⟨values, g', -, h⟩
      · exact passes_of_part (.laterArguments hv) h
      · exact absurd h he.not_done

theorem passes_printing (he : e.OfCall) {separate : Bool} {ns : List Node}
    (h : (printing fuel f separate ns).ending classes = e) :
    (printing fuel f separate ns).Passes classes e := by
  rw [Activity.ending] at h
  cases ns with
  | nil =>
    rw [Node.printAll, Exec.ending_ofAction] at h
    exact absurd h he.not_write
  | cons n ns =>
    rw [Node.printAll] at h
    rcases Exec.ending_bind h with h | ⟨v, g, hv, h⟩
    · exact passes_of_part .firstPrinted h
    · -- The rest of the row, once the separator is written.
      have tail : ∀ f', (if separate then Action.write " " else pure ()) g.machine =
          .done ((), f'.machine) →
          f'.scope = g.scope → Exec.ending (do
            let text ← Exec.ofAction (renderValue classes fuel v)
            Exec.ofAction (Action.write text)
            Node.printAll classes (.within classes fuel) true ns) f' = e →
          (printing fuel f separate (n :: ns)).Passes classes e := by
        intro f' hspace hscope h
        rcases Exec.ending_bind h with h | ⟨text, f₁, htext, h⟩
        · rw [Exec.ending_ofAction] at h
          exact passes_of_part (.rendered hv hspace) h
        · obtain ⟨htext, hscope₁⟩ := Exec.done_of_ofAction htext
          rcases Exec.ending_bind h with h | ⟨_, f₂, hwrite, h⟩
          · rw [Exec.ending_ofAction] at h
            exact absurd h he.not_write
          · obtain ⟨hwrite, hscope₂⟩ := Exec.done_of_ofAction hwrite
            have hf₂ : f₂ = ⟨g.scope, f₂.machine⟩ := by
              rw [← hscope, ← hscope₁, ← hscope₂]
            rw [hf₂] at h
            exact passes_of_part (.laterPrinted hv hspace htext hwrite) h
      cases separate with
      | false => exact tail g rfl rfl h
      | true =>
        rcases Exec.ending_bind h with h | ⟨_, f', hspace, h⟩
        · rw [Exec.ending_ofAction] at h
          exact absurd h he.not_write
        · obtain ⟨hspace, hscope⟩ := Exec.done_of_ofAction hspace
          exact tail f' hspace hscope h

theorem passes_call (he : e.OfCall) {receiver : Value} {name : String} {args : List Value}
    (h : (call fuel m receiver name args).ending classes = e) :
    (call fuel m receiver name args).Passes classes e := by
  rw [Activity.ending] at h
  cases hfound : receiver.methodFor classes m.heap name args.length with
  | error cause =>
    refine .inr ?_
    have hfailed : Outcome.failed (.error cause, m) = e := by
      cases fuel <;> rw [callMethod, Action.ending_heap, hfound] at h <;> exact h
    rw [← hfailed]
    exact .missing hfound
  | ok method =>
    cases fuel with
    | zero =>
      rw [callMethod, Action.ending_heap, hfound] at h
      have hstarved : Outcome.starved = e := h
      rw [← hstarved]
      exact .inr (.tooDeep hfound)
    | succ fuel =>
      rw [callMethod, Action.ending_heap, hfound] at h
      exact passes_of_part (.body hfound) (he.of_run h)

theorem passes_render (he : e.OfCall) {v : Value}
    (h : (render fuel m v).ending classes = e) :
    (render fuel m v).Passes classes e := by
  rw [Activity.ending] at h
  cases fuel with
  | zero =>
    rw [renderValue, Action.ending_heap] at h
    split at h
    · next hmethod =>
      have hstarved : Outcome.starved = e := h
      rw [← hstarved]
      exact .inr (.tooDeepText hmethod)
    · exact absurd h he.not_done
  | succ fuel =>
    rw [renderValue, Action.ending_heap] at h
    split at h
    · next hmethod =>
      rcases Action.ending_bind h with h | ⟨result, m', hresult, h⟩
      · exact passes_of_part (.text hmethod) h
      · exact passes_of_part (.textAgain hmethod hresult) h
    · exact absurd h he.not_done

/-- Where an activity ends so, something that it is made of does, unless it is a call
that raises it. -/
theorem passes_of_ending (he : e.OfCall) {A : Activity} (h : A.ending classes = e) :
    A.Passes classes e := by
  cases A with
  | node => exact passes_node he h
  | statements => exact passes_statements he h
  | arguments => exact passes_arguments he h
  | printing => exact passes_printing he h
  | call => exact passes_call he h
  | render => exact passes_render he h

/-- What an activity is made of goes on for less: with less fuel, or in a smaller tree. -/
noncomputable def measure : Activity → Nat ×ₗ Nat
  | node fuel _ n => toLex (fuel, sizeOf n)
  | statements fuel _ ns | arguments fuel _ ns | printing fuel _ _ ns =>
    toLex (fuel, sizeOf ns)
  | call fuel _ _ _ _ | render fuel _ _ => toLex (fuel, 0)

theorem Part.measure_lt {A B : Activity} (h : Part classes A B) :
    B.measure < A.measure := by
  rw [Prod.Lex.lt_iff]
  cases h with
  | first hn => exact .inr ⟨rfl, Node.sizeOf_first? hn⟩
  | second hn => exact .inr ⟨rfl, Node.sizeOf_operands? hn⟩
  | body | text | textAgain => exact .inl (Nat.lt_succ_self _)
  | either =>
    refine .inr ⟨rfl, ?_⟩
    simp only [measure, ofLex_toLex, Node.ifElse.sizeOf_spec]
    split <;> omega
  | _ =>
    refine .inr ⟨rfl, ?_⟩
    simp only [measure, ofLex_toLex, Node.setField.sizeOf_spec, Node.ifThen.sizeOf_spec,
      Node.block.sizeOf_spec, Node.print.sizeOf_spec, Node.str.sizeOf_spec,
      Node.arith.sizeOf_spec, Node.compare.sizeOf_spec,
      Node.create.sizeOf_spec, Node.call.sizeOf_spec, List.cons.sizeOf_spec]
    omega

/-- Where an activity ends so, the ending has come from a call, through activities that
all end so. -/
theorem exists_origin (he : e.OfCall) {A : Activity} (h : A.ending classes = e) :
    ∃ B, Relation.ReflTransGen (fun A B => Part classes A B ∧ A.ending classes = e) A B ∧
      B.Raises classes e := by
  induction hmeasure : A.measure using WellFoundedLT.induction generalizing A with
  | ind measure ih =>
    rcases passes_of_ending he h with ⟨B, hpart, hB⟩ | hraises
    · obtain ⟨C, hpath, hraises⟩ := ih B.measure (hmeasure ▸ hpart.measure_lt) hB rfl
      exact ⟨C, .head ⟨hpart, h⟩ hpath, hraises⟩
    · exact ⟨A, .refl, hraises⟩

end Activity

/-! ## Invariants along the parts -/

theorem Node.constants_of_first? {asked : Literal → Prop} {n child : Node}
    (h : n.first? = some child) (hn : n.Constants asked) : child.Constants asked := by
  cases n with
  | assign | not | str | ret | body =>
    cases h
    exact hn
  | arith | logic | compare | ifThen | ifElse | call =>
    cases h
    exact hn.1
  | lit | none | path | setField | block | define | create | print => cases h

theorem Node.constants_of_operands? {asked : Literal → Prop} {n left right : Node}
    (h : n.operands? = some (left, right)) (hn : n.Constants asked) :
    left.Constants asked ∧ right.Constants asked := by
  cases n with
  | arith | logic | compare =>
    cases h
    exact hn
  | _ => cases h

namespace Invariant

variable (I : Invariant classes)

/-- What the activity starts with is as asked. -/
def Governs : Activity → Prop
  | .node _ f n => I.Holds f ∧ n.Constants I.Admits
  | .statements _ f ns | .arguments _ f ns | .printing _ f _ ns =>
    I.Holds f ∧ Node.AllConstants I.Admits ns
  | .call _ m receiver _ args =>
    I.machine m ∧ I.value m.heap receiver ∧ ∀ arg ∈ args, I.value m.heap arg
  | .render _ m v => I.machine m ∧ I.value m.heap v

variable {I}

theorem Holds.allocate (hf : I.Holds f) (cls : ClassId) : I.Holds (f.allocate cls) :=
  ⟨(I.allocate cls hf.machine).1, hf.scope.later (Heap.extends_allocate _ _)⟩

theorem acts_separator (separate : Bool) (hm : I.machine m) :
    I.Acts (if separate then Action.write " " else pure ()) m (fun _ _ => True) :=
  .ite (fun _ => .write hm I.space) fun _ => .pure hm trivial

theorem governs_of_calls (hclasses : I.Classes) {l r : Value} {op : Comparator}
    {m' : Machine} {name : String}
    (h : op.Calls classes (.within classes fuel) l r m m' name) (hm : I.machine m)
    (hl : I.value m.heap l) (hr : I.value m.heap r) :
    I.Governs (.call fuel m' l name [r]) := by
  have hd := dispatches_within hclasses fuel
  cases h with
  | less | equal => exact ⟨hm, hl, List.forall_mem_singleton.mpr hr⟩
  | notLess _ _ _ hanswer =>
    obtain ⟨hm', hext, -⟩ := (acts_less hd hm hl hr).done hanswer
    exact ⟨hm', I.later hext hl, List.forall_mem_singleton.mpr (I.later hext hr)⟩

/-- An invariant passes on to everything that an activity is made of. -/
theorem governs_part (hclasses : I.Classes) {A B : Activity} (h : A.Part classes B)
    (hA : I.Governs A) :
    I.Governs B := by
  have hd := dispatches_within hclasses
  cases h with
  | first hn => exact ⟨hA.1, Node.constants_of_first? hn hA.2⟩
  | second hn hleft =>
    have hn := Node.constants_of_operands? hn hA.2
    exact ⟨((Node.exec_runs (hd _) _ hn.1 hA.1).done hleft).1, hn.2⟩
  | stored => exact hA
  | yes hcondition =>
    exact ⟨((Node.exec_runs (hd _) _ hA.2.1 hA.1).done hcondition).1, hA.2.2⟩
  | either hcondition =>
    refine ⟨((Node.exec_runs (hd _) _ hA.2.1 hA.1).done hcondition).1, ?_⟩
    split
    · exact hA.2.2.1
    · exact hA.2.2.2
  | block | print => exact hA
  | @str _ _ operand _ _ hoperand =>
    obtain ⟨hg, -, hv⟩ := (Node.exec_runs (hd _) operand hA.2 hA.1).done hoperand
    exact ⟨hg.machine, hv⟩
  | add hleft hright =>
    obtain ⟨hg, -, hl⟩ := (Node.exec_runs (hd _) _ hA.2.1 hA.1).done hleft
    obtain ⟨hh, hext, hr⟩ := (Node.exec_runs (hd _) _ hA.2.2 hg).done hright
    exact ⟨hh.machine, I.later hext hl, List.forall_mem_singleton.mpr hr⟩
  | compare hleft hright hcalls =>
    obtain ⟨hg, -, hl⟩ := (Node.exec_runs (hd _) _ hA.2.1 hA.1).done hleft
    obtain ⟨hh, hext, hr⟩ := (Node.exec_runs (hd _) _ hA.2.2 hg).done hright
    exact governs_of_calls hclasses hcalls hh.machine (I.later hext hl) hr
  | initArguments => exact ⟨hA.1.allocate _, hA.2⟩
  | init hmethod hargs =>
    obtain ⟨hg, hext, hvalues⟩ :=
      (Node.evalAll_runs (hd _) _ hA.2 (hA.1.allocate _)).done hargs
    exact ⟨hg.machine, I.later hext (I.allocate _ hA.1.machine).2, hvalues⟩
  | callArguments hobject =>
    exact ⟨((Node.exec_runs (hd _) _ hA.2.1 hA.1).done hobject).1, hA.2.2⟩
  | call hobject hmethod hargs =>
    obtain ⟨hg, -, hreceiver⟩ := (Node.exec_runs (hd _) _ hA.2.1 hA.1).done hobject
    obtain ⟨hh, hext, hvalues⟩ := (Node.evalAll_runs (hd _) _ hA.2.2 hg).done hargs
    exact ⟨hh.machine, I.later hext hreceiver, hvalues⟩
  | firstStatement | firstArgument | firstPrinted => exact ⟨hA.1, hA.2.1⟩
  | laterStatements hfirst | laterArguments hfirst =>
    exact ⟨((Node.exec_runs (hd _) _ hA.2.1 hA.1).done hfirst).1, hA.2.2⟩
  | rendered hfirst hspace =>
    obtain ⟨hg, -, hv⟩ := (Node.exec_runs (hd _) _ hA.2.1 hA.1).done hfirst
    obtain ⟨hm, hext, -⟩ := (acts_separator _ hg.machine).done hspace
    exact ⟨hm, I.later hext hv⟩
  | laterPrinted hfirst hspace htext hwrite =>
    obtain ⟨hg, -, hv⟩ := (Node.exec_runs (hd _) _ hA.2.1 hA.1).done hfirst
    obtain ⟨hm, hext, -⟩ := (acts_separator _ hg.machine).done hspace
    obtain ⟨hm', hext', ht⟩ := ((hd _).render hm (I.later hext hv)).done htext
    obtain ⟨hm'', hext'', -⟩ := (Acts.write hm' ht).done hwrite
    exact ⟨⟨hm'', hg.scope.later (hext.trans (hext'.trans hext''))⟩, hA.2.2⟩
  | body hmethod =>
    obtain ⟨i, hi⟩ := Value.exists_mem_of_methodFor hmethod
    exact ⟨⟨hA.1, binds_frame _ hA.2.1 hA.2.2⟩, hclasses i _ hi⟩
  | text => exact ⟨hA.1, hA.2, fun _ h => absurd h List.not_mem_nil⟩
  | textAgain hmethod hcall =>
    obtain ⟨hm, -, hv⟩ :=
      ((hd _).call Special.str hA.1 hA.2 fun _ h => absurd h List.not_mem_nil).done hcall
    exact ⟨hm, hv⟩

/-- And so to everything that goes on inside of it. -/
theorem governs_of_contains (hclasses : I.Classes) {A B : Activity}
    (h : A.Contains classes B) (hA : I.Governs A) :
    I.Governs B := by
  induction h with
  | refl => exact hA
  | tail _ hpart ih => exact governs_part hclasses hpart ih

end Invariant

end Mint
