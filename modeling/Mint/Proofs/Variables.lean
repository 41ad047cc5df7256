import Mint.Proofs.WellFormed

/-!
# Variables

Few nodes touch the variables in sight. A dotted name and the target of a field
assignment read one, an assignment and the definition of a class bind one. Everything
else, calls above all, works on the machine: a method runs in a scope of its own.
`VariableRules` says what has to be checked of these four kinds of node, and
`Node.exec_variables` walks the tree once for all facts about variables.

The fact proved here is that no other names change than those that the tree binds
(`only_bound_names_change`).
-/

namespace Mint

/-! ## Facts about variables -/

/-- A property of code that the constructs of the language keep, whatever the methods do
that are called. The nodes that touch variables may be asked for something, `T`. -/
structure VariableRules (classes : ClassTable) (T : Node → Prop)
    (E : ∀ {α : Type}, Exec α → Prop) : Prop where
  pure : ∀ {α : Type} (a : α), E (pure a)
  bind : ∀ {α β : Type} {x : Exec α} {g : α → Exec β}, E x → (∀ a, E (g a)) → E (x >>= g)
  ofAction : ∀ {α : Type} (x : Action α), E (Exec.ofAction x)
  returned : ∀ v, E (Run.fail (.returned v) : Exec Value)
  catchReturn : ∀ {x : Exec Value}, E x → E (Exec.catchReturn x)
  path : ∀ segments, T (.path segments) →
    E (Node.ofLookup fun heap scope => Path.resolve classes heap scope segments)
  target : ∀ object field value, T (.setField object field value) →
    E (Node.ofLookup fun heap scope => Path.target classes heap scope object field)
  assign : ∀ name value v, T (.assign name value) → E (Exec.bindName name v)
  define : ∀ cls, T (.define cls) → E (Exec.bindName (classes.get cls).name (.cls cls))

section

variable {classes : ClassTable} {T : Node → Prop} {E : ∀ {α : Type}, Exec α → Prop}
  {d : Dispatch}

theorem VariableRules.ite (_ : VariableRules classes T E) {α : Type} {p : Prop}
    [Decidable p] {x y : Exec α} (h : E x) (h' : E y) : E (if p then x else y) := by
  split
  · exact h
  · exact h'

open List (forall_mem_cons forall_mem_append)

mutual

/-- Code has the property if every node in the tree is as asked. -/
theorem Node.exec_variables (c : VariableRules classes T E) :
    ∀ n : Node, (∀ t ∈ n.subtrees, T t) → E (n.exec classes d)
  | .lit _, _ | .none, _ => by
    simp only [Node.exec]
    exact c.pure _
  | .path segments, h => by
    simp only [Node.exec]
    exact c.path segments (h _ List.mem_cons_self)
  | .define cls, h => by
    simp only [Node.exec]
    exact c.bind (c.define cls (h _ List.mem_cons_self)) fun _ => c.pure _
  | .assign name value, h => by
    obtain ⟨hself, hvalue⟩ := forall_mem_cons.mp h
    simp only [Node.exec]
    exact c.bind (Node.exec_variables c value hvalue) fun v =>
      c.bind (c.assign name value v hself) fun _ => c.pure _
  | .setField object field value, h => by
    obtain ⟨hself, hvalue⟩ := forall_mem_cons.mp h
    simp only [Node.exec]
    exact c.bind (c.target object field value hself) fun _ =>
      c.bind (Node.exec_variables c value hvalue) fun _ =>
        c.bind (c.ofAction _) fun _ => c.pure _
  | .arith _ left right, h | .logic _ left right, h => by
    obtain ⟨hleft, hright⟩ := forall_mem_append.mp (forall_mem_cons.mp h).2
    simp only [Node.exec]
    exact c.bind (Node.exec_variables c left hleft) fun _ =>
      c.bind (Node.exec_variables c right hright) fun _ => c.ofAction _
  | .compare _ left right, h => by
    obtain ⟨hleft, hright⟩ := forall_mem_append.mp (forall_mem_cons.mp h).2
    simp only [Node.exec]
    exact c.bind (Node.exec_variables c left hleft) fun _ =>
      c.bind (Node.exec_variables c right hright) fun _ =>
        c.bind (c.ofAction _) fun _ => c.pure _
  | .not operand, h => by
    simp only [Node.exec]
    exact c.bind (Node.exec_variables c operand (forall_mem_cons.mp h).2) fun _ =>
      c.ofAction _
  | .str operand, h => by
    simp only [Node.exec]
    exact c.bind (Node.exec_variables c operand (forall_mem_cons.mp h).2) fun _ =>
      c.bind (c.ofAction _) fun _ => c.pure _
  | .ifThen condition yes, h => by
    obtain ⟨hcondition, hyes⟩ := forall_mem_append.mp (forall_mem_cons.mp h).2
    simp only [Node.exec]
    exact c.bind (Node.exec_variables c condition hcondition) fun _ =>
      c.ite (Node.exec_variables c yes hyes) (c.pure _)
  | .ifElse condition yes no, h => by
    obtain ⟨hcondition, hbranches⟩ := forall_mem_append.mp (forall_mem_cons.mp h).2
    obtain ⟨hyes, hno⟩ := forall_mem_append.mp hbranches
    simp only [Node.exec]
    exact c.bind (Node.exec_variables c condition hcondition) fun _ =>
      c.ite (Node.exec_variables c yes hyes) (Node.exec_variables c no hno)
  | .block statements, h => by
    simp only [Node.exec]
    exact c.bind (Node.execAll_variables c statements (forall_mem_cons.mp h).2) fun _ =>
      c.pure _
  | .ret value, h => by
    simp only [Node.exec]
    exact c.bind (Node.exec_variables c value (forall_mem_cons.mp h).2) fun v =>
      c.returned v
  | .body inner, h => by
    simp only [Node.exec]
    exact c.catchReturn (Node.exec_variables c inner (forall_mem_cons.mp h).2)
  | .create _ args, h => by
    simp only [Node.exec]
    refine c.bind (c.ofAction _) fun _ => c.ite ?_ (c.pure _)
    exact c.bind (Node.evalAll_variables c args (forall_mem_cons.mp h).2) fun _ =>
      c.bind (c.ofAction _) fun _ => c.pure _
  | .print args, h => by
    simp only [Node.exec]
    exact c.bind (Node.printAll_variables c false args (forall_mem_cons.mp h).2) fun _ =>
      c.pure _
  | .call object _ args, h => by
    obtain ⟨hobject, hargs⟩ := forall_mem_append.mp (forall_mem_cons.mp h).2
    simp only [Node.exec]
    refine c.bind (Node.exec_variables c object hobject) fun _ =>
      c.bind (c.ofAction _) fun _ => c.ite ?_ (c.pure _)
    exact c.bind (Node.evalAll_variables c args hargs) fun _ => c.ofAction _

theorem Node.execAll_variables (c : VariableRules classes T E) :
    ∀ ns : List Node, (∀ t ∈ Node.allSubtrees ns, T t) → E (Node.execAll classes d ns)
  | [], _ => by
    simp only [Node.execAll]
    exact c.pure _
  | first :: rest, h => by
    obtain ⟨hfirst, hrest⟩ := forall_mem_append.mp h
    simp only [Node.execAll]
    exact c.bind (Node.exec_variables c first hfirst) fun _ =>
      Node.execAll_variables c rest hrest

theorem Node.evalAll_variables (c : VariableRules classes T E) :
    ∀ ns : List Node, (∀ t ∈ Node.allSubtrees ns, T t) → E (Node.evalAll classes d ns)
  | [], _ => by
    simp only [Node.evalAll]
    exact c.pure _
  | first :: rest, h => by
    obtain ⟨hfirst, hrest⟩ := forall_mem_append.mp h
    simp only [Node.evalAll]
    exact c.bind (Node.exec_variables c first hfirst) fun _ =>
      c.bind (Node.evalAll_variables c rest hrest) fun _ => c.pure _

theorem Node.printAll_variables (c : VariableRules classes T E) :
    ∀ (separate : Bool) (ns : List Node), (∀ t ∈ Node.allSubtrees ns, T t) →
      E (Node.printAll classes d separate ns)
  | _, [], _ => by
    simp only [Node.printAll]
    exact c.ofAction _
  | separate, first :: rest, h => by
    obtain ⟨hfirst, hrest⟩ := forall_mem_append.mp h
    simp only [Node.printAll]
    refine c.bind (Node.exec_variables c first hfirst) fun v => ?_
    have tail : E (do
        let text ← Exec.ofAction (d.render v)
        Exec.ofAction (Action.write text)
        Node.printAll classes d true rest) :=
      c.bind (c.ofAction _) fun _ =>
        c.bind (c.ofAction _) fun _ => Node.printAll_variables c true rest hrest
    exact c.ite (c.bind (c.ofAction _) fun _ => tail) tail

end

end

/-! ## Names that are bound -/

namespace Node

/-- The name that the node itself binds. -/
def boundName? (classes : ClassTable) : Node → Option String
  | .assign name _ => some name
  | .define cls => some (classes.get cls).name
  | _ => Option.none

/-- The names of the assignments and of the class definitions in a tree, in the order in
which they are written. Methods of the classes are not part of the tree. -/
def boundNames (classes : ClassTable) (node : Node) : List String :=
  node.subtrees.filterMap (boundName? classes)

/-- An expression binds no name. -/
theorem boundName?_of_isExpression {node : Node} (classes : ClassTable)
    (h : node.isExpression = true) :
    node.boundName? classes = Option.none := by
  cases node with
  | assign | define => cases h
  | _ => rfl

end Node

/-- However the code ends, the name is bound as it was. -/
def Exec.Leaves {α : Type} (name : String) (x : Exec α) : Prop :=
  ∀ f f', (x f).state? = some f' → f'.scope.get? name = f.scope.get? name

namespace Exec

variable {α β : Type} {name : String}

theorem Leaves.bind {x : Exec α} {g : α → Exec β} (h : x.Leaves name)
    (k : ∀ a, (g a).Leaves name) :
    Exec.Leaves name (x >>= g) := by
  intro f f' hf'
  rcases Run.state?_bind hf' with hx | ⟨a, f₁, hx, hg⟩
  · exact h f f' hx
  · rw [k a f₁ f' hg, h f f₁ hx]

theorem leaves_ofAction (x : Action α) : (Exec.ofAction x).Leaves name := by
  intro f f' hf'
  rw [state?_ofAction] at hf'
  obtain ⟨m', -, rfl⟩ := Option.map_eq_some_iff.mp hf'
  rfl

theorem leaves_ofLookup (lookup : Heap → Scope → Except EvalError α) :
    (Node.ofLookup lookup).Leaves name := by
  intro f f' hf'
  rw [Node.state?_ofLookup] at hf'
  cases hf'
  rfl

theorem leaves_bindName {bound : String} (v : Value) (h : bound ≠ name) :
    (Exec.bindName bound v).Leaves name := by
  rintro f _ ⟨⟩
  exact f.scope.get?_insert_ne v h.symm

theorem Leaves.catchReturn {x : Exec Value} (h : x.Leaves name) :
    (Exec.catchReturn x).Leaves name := by
  intro f f' hf'
  rw [state?_catchReturn] at hf'
  exact h f f' hf'

end Exec

theorem leaves_variableRules (classes : ClassTable) (name : String) :
    VariableRules classes (fun t => t.boundName? classes ≠ some name)
      (Exec.Leaves name) where
  pure _ := by
    rintro f _ ⟨⟩
    rfl
  bind h k := h.bind k
  ofAction x := Exec.leaves_ofAction x
  returned _ := by
    rintro f _ ⟨⟩
    rfl
  catchReturn h := h.catchReturn
  path _ _ := Exec.leaves_ofLookup _
  target _ _ _ _ := Exec.leaves_ofLookup _
  assign _ _ v h := Exec.leaves_bindName v fun heq => h (congrArg some heq)
  define _ h := Exec.leaves_bindName _ fun heq => h (congrArg some heq)

theorem Node.exec_leaves {classes : ClassTable} {d : Dispatch} {node : Node}
    {name : String} (h : name ∉ node.boundNames classes) :
    (node.exec classes d).Leaves name :=
  Node.exec_variables (leaves_variableRules classes name) node fun t ht heq =>
    h (List.mem_filterMap.mpr ⟨t, ht, heq⟩)

/-- What the parser reads as an expression binds no name. -/
theorem Parser.boundNames_of_expression {fuel : Nat} {level : Level} {s u : ParserState}
    {node : Node} (h : expression fuel level s = .done (node, u)) (classes : ClassTable) :
    node.boundNames classes = [] :=
  List.filterMap_eq_nil_iff.mpr fun t ht =>
    Node.boundName?_of_isExpression classes (isExpression_of_expression h t ht)

/-- In whichever frame whichever tree runs, and whether it yields a value, returns one
or fails: a name that the tree does not bind is bound in the end as it was in the
beginning. A tree that the parser has read as an expression binds none at all, so every
name is, whatever the methods do that it calls. -/
theorem only_bound_names_change :
    (∀ classes fuel (node : Node) frame after,
      (node.exec classes (.within classes fuel) frame).state? = some after →
      ∀ name,
        name ∉ node.boundNames classes → after.scope.get? name = frame.scope.get? name) ∧
    ∀ fuel state state' node,
      Parser.expression fuel .disjunction state = .done (node, state') →
      ∀ classes fuel frame after,
        (node.exec classes (.within classes fuel) frame).state? = some after →
      ∀ name, after.scope.get? name = frame.scope.get? name := by
  constructor
  · intro classes fuel node frame after h name hname
    exact Node.exec_leaves hname frame after h
  · intro fuel state state' node hparse classes fuel frame after h name
    have hname : name ∉ node.boundNames classes := by
      rw [Parser.boundNames_of_expression hparse]
      exact List.not_mem_nil
    exact Node.exec_leaves hname frame after h

/-- Boxes that are filled through a local variable `x`. Nothing can be added to what was
filled in. -/
def fillClasses : ClassTable :=
  ⟨#[⟨"Box", none, [⟨"fill", ["v"], .body (.block [.assign "x" (.path ["v"]),
    .setField ["self"] "content" (.path ["x"]), .arith .add (.path ["x"]) .none])⟩]⟩]⟩

/-- The variable `b` holds a box with the given fields, `x` a number, and there may be
more variables. -/
def fillFrame (fields : List (String × Value)) (more : List (String × Value)) : Frame :=
  ⟨⟨[("b", .inst 0), ("x", .number 7)] ++ more⟩, ⟨⟨#[⟨0, ⟨fields⟩⟩]⟩, .unlimited⟩⟩

/-- A parser before `b.fill(1)`. -/
def beforeFill : ParserState :=
  ⟨⟨[], ⟨.id "b", 1⟩, Reading.place 1 [.char '.', .id "fill", .char '(', .number 1,
    .char ')', Token.newline, Token.eof]⟩, fillClasses⟩

/-- The call that `beforeFill` stands before. -/
def fillCall : Node := .call (.path ["b"]) "fill" [.lit (.number 1)]

/-- Assigns to `y`, and then fills the box, which fails. -/
def fillNode : Node := .block [.assign "y" (.lit (.number 2)), .ret fillCall]

theorem only_bound_names_change_fill :
    fillNode.exec fillClasses (.within fillClasses 1) (fillFrame [] []) =
      .failed (.error (.binaryMismatch (.arith .add) "Number" "None"),
        fillFrame [("content", .number 1)] [("y", .number 2)]) ∧
    fillNode.boundNames fillClasses = ["y"] ∧
    (fillFrame [("content", .number 1)] [("y", .number 2)]).scope.get? "x" =
      (fillFrame [] []).scope.get? "x" ∧
    (∃ state, Parser.expression 60 .disjunction beforeFill = .done (fillCall, state)) ∧
    fillCall.exec fillClasses (.within fillClasses 1) (fillFrame [] []) =
      .failed (.error (.binaryMismatch (.arith .add) "Number" "None"),
        fillFrame [("content", .number 1)] []) ∧
    ∀ name, (fillFrame [("content", .number 1)] []).scope.get? name =
      (fillFrame [] []).scope.get? name := by
  have hnode : fillNode.exec fillClasses (.within fillClasses 1) (fillFrame [] []) =
      .failed (.error (.binaryMismatch (.arith .add) "Number" "None"),
        fillFrame [("content", .number 1)] [("y", .number 2)]) := by decide +kernel
  have hcall : fillCall.exec fillClasses (.within fillClasses 1) (fillFrame [] []) =
      .failed (.error (.binaryMismatch (.arith .add) "Number" "None"),
        fillFrame [("content", .number 1)] []) := by
    decide +kernel
  have hbound : fillNode.boundNames fillClasses = ["y"] := by decide
  have hparse : ∃ state,
    Parser.expression 60 .disjunction beforeFill = .done (fillCall, state) := ⟨_, by rfl⟩
  obtain ⟨state, hstate⟩ := hparse
  refine ⟨hnode, hbound, ?_, ⟨state, hstate⟩, hcall, ?_⟩
  · exact only_bound_names_change.1 _ _ _ _ _ (by rw [hnode]; rfl) "x"
      (by rw [hbound]; decide)
  · exact only_bound_names_change.2 _ _ _ _ hstate _ _ _ _ (by rw [hcall]; rfl)

end Mint
