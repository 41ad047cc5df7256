import Mint.Interpreter

/-!
# Relations that all code keeps

Many facts about running code have one shape: something holds of the few primitive
steps, every construct of the language passes it on, and so it holds of every tree and
of every method call. `Congruence` names what has to be checked of the primitive steps
and of the ways to put code together. `Node.exec_related` walks the tree, once for all
such facts.

A relation compares two pieces of code that differ in how they run methods. A property
of one piece of code is a relation that looks at its first argument only.

Code out of which a `return` may come is kept apart from code out of which none comes.
The syntactic side of that difference is `Node.isSealed`.
-/

namespace Mint

namespace Node

mutual

/-- Whether every `return` of the tree has a method body around it inside the tree. -/
def isSealed : Node → Bool
  | .lit _ | .none | .path _ | .define _ | .body _ => true
  | .ret _ => false
  | .assign _ value | .setField _ _ value | .not value | .str value => value.isSealed
  | .arith _ left right | .logic _ left right | .compare _ left right =>
    left.isSealed && right.isSealed
  | .ifThen condition yes => condition.isSealed && yes.isSealed
  | .ifElse condition yes no => condition.isSealed && yes.isSealed && no.isSealed
  | .block nodes | .create _ nodes | .print nodes => allSealed nodes
  | .call object _ args => object.isSealed && allSealed args

/-- Whether all trees of a list are sealed. -/
def allSealed : List Node → Bool
  | [] => true
  | first :: rest => first.isSealed && allSealed rest

end

end Node

/-- A relation between actions and one between pieces of code in a scope that the
constructs of the language keep. With the flag set, a `return` may come out of the
code. -/
structure Congruence (A : ∀ {α : Type}, Action α → Action α → Prop)
    (E : Bool → ∀ {α : Type}, Exec α → Exec α → Prop) : Prop where
  actionPure : ∀ {α : Type} (a : α), A (pure a) (pure a)
  actionBind : ∀ {α β : Type} {x y : Action α} {f g : α → Action β},
    A x y → (∀ a, A (f a) (g a)) → A (x >>= f) (y >>= g)
  /-- The operations of the language raise any cause but that of a stray `return`. -/
  actionFail : ∀ {α : Type} {e : EvalError},
    e ≠ .strayReturn → A (Run.fail e : Action α) (Run.fail e)
  heap : A Action.heap Action.heap
  allocate : ∀ cls, A (Action.allocate cls) (Action.allocate cls)
  setField : ∀ a field v, A (Action.setField a field v) (Action.setField a field v)
  write : ∀ text, A (Action.write text) (Action.write text)
  codePure : ∀ {b : Bool} {α : Type} (a : α), E b (pure a) (pure a)
  codeBind : ∀ {b : Bool} {α β : Type} {x y : Exec α} {f g : α → Exec β},
    E b x y → (∀ a, E b (f a) (g a)) → E b (x >>= f) (y >>= g)
  ofAction : ∀ {b : Bool} {α : Type} {x y : Action α},
    A x y → E b (Exec.ofAction x) (Exec.ofAction y)
  ofLookup : ∀ {b : Bool} {α : Type} {lookup : Heap → Scope → Except EvalError α},
    (∀ heap scope, lookup heap scope ≠ .error .strayReturn) →
      E b (Node.ofLookup lookup) (Node.ofLookup lookup)
  bindName : ∀ {b : Bool} name v, E b (Exec.bindName name v) (Exec.bindName name v)
  returned : ∀ v, E true (Run.fail (.returned v) : Exec Value) (Run.fail (.returned v))
  catchReturn : ∀ {b : Bool} {x y : Exec Value},
    E true x y → E b (Exec.catchReturn x) (Exec.catchReturn y)

/-- Two dispatches whose calls are related. -/
structure Dispatch.Related (A : ∀ {α : Type}, Action α → Action α → Prop)
    (d e : Dispatch) : Prop where
  call : ∀ v m args, A (d.call v m args) (e.call v m args)
  render : ∀ v, A (d.render v) (e.render v)

/-! ## Looking up names -/

/-- The causes for which a dotted name leads nowhere. -/
def EvalError.isLookup : EvalError → Bool
  | .undefined _ | .invalidPath _ _ _ => true
  | _ => false

theorem Path.isLookup_of_follow {classes : ClassTable} {heap : Heap} {whole : List String}
    {last : String} {v : Value} {rest : List String} {cause : EvalError}
    (h : follow classes heap whole last v rest = .error cause) :
    cause.isLookup = true := by
  induction rest generalizing last v with
  | nil => cases h
  | cons field rest ih =>
    unfold follow at h
    split at h
    · split at h
      · exact ih h
      · cases h
        rfl
    · cases h
      rfl

theorem Path.isLookup_of_resolve {classes : ClassTable} {heap : Heap} {scope : Scope}
    {path : List String} {cause : EvalError}
    (h : resolve classes heap scope path = .error cause) : cause.isLookup = true := by
  unfold resolve at h
  split at h
  · cases h
    rfl
  · split at h
    · exact isLookup_of_follow h
    · cases h
      rfl

theorem Path.isLookup_of_target {classes : ClassTable} {heap : Heap} {scope : Scope}
    {object : List String} {field : String} {cause : EvalError}
    (h : target classes heap scope object field = .error cause) :
    cause.isLookup = true := by
  unfold target at h
  split at h
  · next hresolve =>
    cases h
    exact isLookup_of_resolve hresolve
  · cases h
  · cases h
    rfl

/-! ## Operations -/

theorem ite_related {α : Type} {R : α → α → Prop} {p : Prop} [Decidable p] {x y x' y' : α}
    (h : R x y) (h' : R x' y') : R (if p then x else x') (if p then y else y') := by
  split
  · exact h
  · exact h'

section

variable {A : ∀ {α : Type}, Action α → Action α → Prop}
  {E : Bool → ∀ {α : Type}, Exec α → Exec α → Prop} {classes : ClassTable}
  {d e : Dispatch}

theorem Congruence.mismatch (c : Congruence A E) {α : Type}
    {cause : String → String → EvalError} (h : ∀ s t, cause s t ≠ .strayReturn)
    (v w : Value) :
    A (Dispatch.mismatch classes cause v w : Action α)
      (Dispatch.mismatch classes cause v w) :=
  c.actionBind c.heap fun _ => c.actionFail (h _ _)

theorem Congruence.predicate (c : Congruence A E) (hd : d.Related A e) (v : Value)
    (m : String) (w : Value) :
    A (d.predicate classes v m w) (e.predicate classes v m w) := by
  refine c.actionBind (hd.call _ _ _) fun answer => ?_
  split
  · exact c.actionPure _
  · exact c.actionBind c.heap fun _ => c.actionFail (by simp)

theorem Congruence.equal (c : Congruence A E) (hd : d.Related A e) (v w : Value) :
    A (d.equal classes v w) (e.equal classes v w) := by
  unfold Dispatch.equal
  split
  · exact c.actionPure _
  · exact c.actionPure _
  · exact c.actionPure _
  · exact c.actionPure _
  · exact c.predicate hd _ _ _
  · exact c.mismatch (by simp) _ _

theorem Congruence.less (c : Congruence A E) (hd : d.Related A e) (v w : Value) :
    A (d.less classes v w) (e.less classes v w) := by
  unfold Dispatch.less
  split
  · exact c.actionPure _
  · exact c.actionPure _
  · exact c.actionPure _
  · exact c.actionBind c.heap fun _ =>
      ite_related (c.predicate hd _ _ _) (c.mismatch (by simp) _ _)
  · exact c.mismatch (by simp) _ _

theorem Congruence.compare (c : Congruence A E) (hd : d.Related A e) (op : Comparator)
    (v w : Value) :
    A (d.compare classes op v w) (e.compare classes op v w) := by
  have he : A (d.equal classes v w) (e.equal classes v w) := c.equal hd v w
  have hl : A (d.less classes v w) (e.less classes v w) := c.less hd v w
  cases op with
  | equal => exact he
  | notEqual => exact c.actionBind he fun _ => c.actionPure _
  | less => exact hl
  | greater => exact c.actionBind hl fun _ =>
      ite_related (c.actionPure _) (c.actionBind he fun _ => c.actionPure _)
  | lessOrEqual => exact c.actionBind hl fun _ => ite_related (c.actionPure _) he
  | greaterOrEqual => exact c.actionBind hl fun _ => c.actionPure _

theorem Congruence.arith (c : Congruence A E) (hd : d.Related A e) (op : ArithOp)
    (v w : Value) :
    A (d.arith classes op v w) (e.arith classes op v w) := by
  unfold Dispatch.arith
  split
  · split
    · exact c.actionPure _
    · exact c.actionFail (by simp)
  · exact c.actionPure _
  · exact c.actionBind c.heap fun _ =>
      ite_related (hd.call _ _ _) (c.mismatch (by simp) _ _)
  · exact c.mismatch (by simp) _ _

theorem Congruence.logic (c : Congruence A E) (op : LogicOp) (v w : Value) :
    A (Dispatch.logic classes op v w) (Dispatch.logic classes op v w) := by
  unfold Dispatch.logic
  split
  · exact c.mismatch (by simp) _ _
  · exact c.actionPure _

theorem Congruence.negate (c : Congruence A E) (v : Value) :
    A (Dispatch.negate classes v) (Dispatch.negate classes v) := by
  unfold Dispatch.negate
  split
  · exact c.actionBind c.heap fun _ => c.actionFail (by simp)
  · exact c.actionPure _

/-! ## Trees -/

mutual

/-- Code is related if the calls it makes are. The flag may be unset for sealed trees. -/
theorem Node.exec_related (c : Congruence A E) (hd : d.Related A e) :
    ∀ (b : Bool) (n : Node),
      (b || n.isSealed) = true → E b (n.exec classes d) (n.exec classes e)
  | b, .lit _, _ | b, .none, _ => by
    simp only [Node.exec]
    exact c.codePure _
  | b, .path _, _ => by
    simp only [Node.exec]
    exact c.ofLookup fun _ _ h => nomatch Path.isLookup_of_resolve h
  | b, .define _, _ => by
    simp only [Node.exec]
    exact c.codeBind (c.bindName _ _) fun _ => c.codePure _
  | b, .assign _ value, h => by
    simp only [Node.exec]
    exact c.codeBind (Node.exec_related c hd b value h) fun _ =>
      c.codeBind (c.bindName _ _) fun _ => c.codePure _
  | b, .setField _ _ value, h => by
    simp only [Node.exec]
    exact c.codeBind (c.ofLookup fun _ _ h => nomatch Path.isLookup_of_target h) fun _ =>
      c.codeBind (Node.exec_related c hd b value h) fun _ =>
      c.codeBind (c.ofAction (c.setField _ _ _)) fun _ => c.codePure _
  | b, .arith _ left right, h => by
    rw [Node.isSealed, Bool.or_and_distrib_left, Bool.and_eq_true] at h
    simp only [Node.exec]
    exact c.codeBind (Node.exec_related c hd b left h.1) fun _ =>
      c.codeBind (Node.exec_related c hd b right h.2) fun _ =>
        c.ofAction (c.arith hd _ _ _)
  | b, .logic _ left right, h => by
    rw [Node.isSealed, Bool.or_and_distrib_left, Bool.and_eq_true] at h
    simp only [Node.exec]
    exact c.codeBind (Node.exec_related c hd b left h.1) fun _ =>
      c.codeBind (Node.exec_related c hd b right h.2) fun _ => c.ofAction (c.logic _ _ _)
  | b, .not operand, h => by
    simp only [Node.exec]
    exact c.codeBind (Node.exec_related c hd b operand h) fun _ => c.ofAction (c.negate _)
  | b, .compare _ left right, h => by
    rw [Node.isSealed, Bool.or_and_distrib_left, Bool.and_eq_true] at h
    simp only [Node.exec]
    exact c.codeBind (Node.exec_related c hd b left h.1) fun _ =>
      c.codeBind (Node.exec_related c hd b right h.2) fun _ =>
      c.codeBind (c.ofAction (c.compare hd _ _ _)) fun _ => c.codePure _
  | b, .ifThen condition yes, h => by
    rw [Node.isSealed, Bool.or_and_distrib_left, Bool.and_eq_true] at h
    simp only [Node.exec]
    exact c.codeBind (Node.exec_related c hd b condition h.1) fun _ =>
      ite_related (Node.exec_related c hd b yes h.2) (c.codePure _)
  | b, .ifElse condition yes no, h => by
    rw [Node.isSealed, Bool.or_and_distrib_left, Bool.or_and_distrib_left,
      Bool.and_eq_true, Bool.and_eq_true] at h
    simp only [Node.exec]
    exact c.codeBind (Node.exec_related c hd b condition h.1.1) fun _ =>
      ite_related (Node.exec_related c hd b yes h.1.2) (Node.exec_related c hd b no h.2)
  | b, .block statements, h => by
    simp only [Node.exec]
    exact c.codeBind (Node.execAll_related c hd b statements h) fun _ => c.codePure _
  | b, .ret value, h => by
    -- a bare `return` is not sealed, so the flag is set
    rw [Node.isSealed, Bool.or_false] at h
    subst h
    simp only [Node.exec]
    exact c.codeBind (Node.exec_related c hd true value rfl) fun v => c.returned v
  | b, .body inner, _ => by
    simp only [Node.exec]
    exact c.catchReturn (Node.exec_related c hd true inner rfl)
  | b, .create _ args, h => by
    simp only [Node.exec]
    refine c.codeBind (c.ofAction (c.allocate _)) fun _ => ite_related ?_ (c.codePure _)
    exact c.codeBind (Node.evalAll_related c hd b args h) fun _ =>
      c.codeBind (c.ofAction (hd.call _ _ _)) fun _ => c.codePure _
  | b, .print args, h => by
    simp only [Node.exec]
    exact c.codeBind (Node.printAll_related c hd b false args h) fun _ => c.codePure _
  | b, .str operand, h => by
    simp only [Node.exec]
    exact c.codeBind (Node.exec_related c hd b operand h) fun _ =>
      c.codeBind (c.ofAction (hd.render _)) fun _ => c.codePure _
  | b, .call object _ args, h => by
    rw [Node.isSealed, Bool.or_and_distrib_left, Bool.and_eq_true] at h
    simp only [Node.exec]
    refine c.codeBind (Node.exec_related c hd b object h.1) fun _ =>
      c.codeBind (c.ofAction c.heap) fun _ => ite_related ?_ (c.codePure _)
    exact c.codeBind (Node.evalAll_related c hd b args h.2) fun _ =>
      c.ofAction (hd.call _ _ _)

theorem Node.execAll_related (c : Congruence A E) (hd : d.Related A e) :
    ∀ (b : Bool) (ns : List Node), (b || Node.allSealed ns) = true →
      E b (Node.execAll classes d ns) (Node.execAll classes e ns)
  | b, [], _ => by
    simp only [Node.execAll]
    exact c.codePure _
  | b, first :: rest, h => by
    rw [Node.allSealed, Bool.or_and_distrib_left, Bool.and_eq_true] at h
    simp only [Node.execAll]
    exact c.codeBind (Node.exec_related c hd b first h.1) fun _ =>
      Node.execAll_related c hd b rest h.2

theorem Node.evalAll_related (c : Congruence A E) (hd : d.Related A e) :
    ∀ (b : Bool) (ns : List Node), (b || Node.allSealed ns) = true →
      E b (Node.evalAll classes d ns) (Node.evalAll classes e ns)
  | b, [], _ => by
    simp only [Node.evalAll]
    exact c.codePure _
  | b, first :: rest, h => by
    rw [Node.allSealed, Bool.or_and_distrib_left, Bool.and_eq_true] at h
    simp only [Node.evalAll]
    exact c.codeBind (Node.exec_related c hd b first h.1) fun _ =>
      c.codeBind (Node.evalAll_related c hd b rest h.2) fun _ => c.codePure _

theorem Node.printAll_related (c : Congruence A E) (hd : d.Related A e) :
    ∀ (b separate : Bool) (ns : List Node), (b || Node.allSealed ns) = true →
      E b (Node.printAll classes d separate ns) (Node.printAll classes e separate ns)
  | b, _, [], _ => by
    simp only [Node.printAll]
    exact c.ofAction (c.write _)
  | b, separate, first :: rest, h => by
    rw [Node.allSealed, Bool.or_and_distrib_left, Bool.and_eq_true] at h
    simp only [Node.printAll]
    refine c.codeBind (Node.exec_related c hd b first h.1) fun v => ?_
    have tail : E b (do
        let text ← Exec.ofAction (d.render v)
        Exec.ofAction (Action.write text)
        Node.printAll classes d true rest) (do
        let text ← Exec.ofAction (e.render v)
        Exec.ofAction (Action.write text)
        Node.printAll classes e true rest) :=
      c.codeBind (c.ofAction (hd.render v)) fun _ =>
          c.codeBind (c.ofAction (c.write _)) fun _ =>
        Node.printAll_related c hd b true rest h.2
    exact ite_related (c.codeBind (c.ofAction (c.write _)) fun _ => tail) tail

end

/-! ## Calls -/

/-- A congruence that calls keep as well. Method bodies are code with the given flag. -/
structure CallCongruence (A : ∀ {α : Type}, Action α → Action α → Prop)
    (E : Bool → ∀ {α : Type}, Exec α → Exec α → Prop) (b : Bool) :
    Prop extends Congruence A E where
  inScope : ∀ {α : Type} {x y : Exec α} (scope : Scope), E b x y →
    A (Exec.inScope scope x) (Exec.inScope scope y)
  starve : ∀ {α : Type} (y : Action α), A Run.starve y

theorem ClassTable.exists_get_of_mem_lineageWithin {table : ClassTable} {cls : Class}
    {fuel : Nat} {i : ClassId} (h : cls ∈ table.lineageWithin fuel i) :
    ∃ j, cls = table.get j := by
  induction fuel generalizing i with
  | zero => simp [lineageWithin] at h
  | succ fuel ih =>
    simp only [lineageWithin] at h
    split at h
    · exact ⟨i, by simpa using h⟩
    · rcases List.mem_cons.mp h with h | h
      · exact ⟨i, h⟩
      · exact ih h

/-- A method that a name means is a method of some class of the table. -/
theorem ClassTable.exists_mem_of_methodTaking? {table : ClassTable} {i : ClassId}
    {name : String} {arity : Nat} {m : Method}
    (h : table.methodTaking? i name arity = some m) : ∃ j, m ∈ (table.get j).methods := by
  obtain ⟨h, -⟩ := Option.filter_eq_some_iff.mp h
  obtain ⟨cls, hcls, hm⟩ := List.exists_of_findSome?_eq_some h
  obtain ⟨j, rfl⟩ := exists_get_of_mem_lineageWithin hcls
  exact ⟨j, List.mem_reverse.mp (List.mem_of_find?_eq_some hm)⟩

/-- Only instances have methods, those of their class. -/
theorem Value.exists_of_methodFor {heap : Heap} {v : Value} {name : String} {arity : Nat}
    {m : Method} (h : v.methodFor classes heap name arity = .ok m) :
    ∃ a, v = .inst a ∧ classes.methodTaking? (heap.classOf a) name arity = some m := by
  unfold Value.methodFor at h
  split at h
  · next a =>
    dsimp only at h
    split at h
    · next found hf =>
      cases h
      exact ⟨a, rfl, hf⟩
    · cases h
  · cases h

theorem Value.exists_mem_of_methodFor {heap : Heap} {v : Value} {name : String}
    {arity : Nat} {m : Method} (h : v.methodFor classes heap name arity = .ok m) :
    ∃ j, m ∈ (classes.get j).methods := by
  obtain ⟨a, -, hm⟩ := Value.exists_of_methodFor h
  exact ClassTable.exists_mem_of_methodTaking? hm

theorem Value.methodFor_ne_strayReturn (heap : Heap) (v : Value) (name : String)
    (arity : Nat) :
    v.methodFor classes heap name arity ≠ .error .strayReturn := by
  unfold Value.methodFor
  split
  · dsimp only
    split <;> simp
  · simp

/-- Finding a method and going on with it. -/
theorem Congruence.methodFor (c : Congruence A E) {v : Value} {name : String}
    {arity : Nat} {heap : Heap} {α : Type} {f g : Method → Action α}
    (h : ∀ j, ∀ m ∈ (classes.get j).methods, A (f m) (g m)) :
    A (Run.ofExcept (v.methodFor classes heap name arity) >>= f)
      (Run.ofExcept (v.methodFor classes heap name arity) >>= g) := by
  cases hm : v.methodFor classes heap name arity with
  | ok m =>
    obtain ⟨j, hj⟩ := Value.exists_mem_of_methodFor hm
    exact h j m hj
  | error cause =>
    show A (Run.fail cause) (Run.fail cause)
    refine c.actionFail ?_
    rintro rfl
    exact Value.methodFor_ne_strayReturn heap v name arity hm

theorem Method.run_related {b : Bool} (c : CallCongruence A E b) (hd : d.Related A e)
    {method : Method} (h : (b || method.body.isSealed) = true) (receiver : Value)
    (args : List Value) :
    A (method.run classes d receiver args) (method.run classes e receiver args) :=
  c.actionBind (c.inScope _ (Node.exec_related c.toCongruence hd b method.body h))
    fun _ => c.actionPure _

/-- Calls that may nest deeper are related to calls that may nest less deep. The
induction is on the lesser depth, at which one side starves. -/
theorem Dispatch.within_related {b : Bool} (c : CallCongruence A E b)
    (h : ∀ i, ∀ m ∈ (classes.get i).methods, (b || m.body.isSealed) = true)
    {fuel more : Nat} (hle : fuel ≤ more) :
    (Dispatch.within classes fuel).Related A (Dispatch.within classes more) := by
  induction fuel generalizing more with
  | zero =>
    refine ⟨fun v m args => ?_, fun v => ?_⟩
    · cases more with
      | zero =>
        simp only [Dispatch.within, callMethod]
        exact c.actionBind c.heap fun _ => c.methodFor fun _ _ _ => c.starve _
      | succ more =>
        simp only [Dispatch.within, callMethod]
        exact c.actionBind c.heap fun _ => c.methodFor fun _ _ _ => c.starve _
    · cases more with
      | zero =>
        simp only [Dispatch.within, renderValue]
        exact c.actionBind c.heap fun _ => ite_related (c.starve _) (c.actionPure _)
      | succ more =>
        simp only [Dispatch.within, renderValue]
        exact c.actionBind c.heap fun _ => ite_related (c.starve _) (c.actionPure _)
  | succ fuel ih =>
    obtain ⟨more, rfl⟩ : ∃ k, more = k + 1 := ⟨more - 1, by omega⟩
    have hd : (Dispatch.within classes fuel).Related A (Dispatch.within classes more) :=
      ih (by omega)
    refine ⟨fun v m args => ?_, fun v => ?_⟩
    · simp only [Dispatch.within, callMethod]
      exact c.actionBind c.heap fun _ => c.methodFor fun j found hj =>
        Method.run_related c hd (h j found hj) v args
    · simp only [Dispatch.within, renderValue]
      exact c.actionBind c.heap fun _ => ite_related
        (c.actionBind (hd.call v Special.str []) fun result => hd.render result)
        (c.actionPure _)

end

end Mint
