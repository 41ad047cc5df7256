import Mathlib.Data.Set.Insert
import Mint.Proofs.Variables

/-!
# Scopes that code cannot tell apart

Code finds out about its variables only by the dotted names in it. Two scopes that bind
the names which a tree reads to the same values are therefore the same to it: run in the
one and in the other, on the same machine, it ends in the same way and leaves the same
machine (`sees_only_names_it_reads`). The scopes it leaves still agree, for what it has
bound is the same in both.

Nothing is said of the methods that are called. They run in scopes of their own, which
are made from values alone.
-/

namespace Mint

/-! ## Names that are read -/

namespace Node

/-- The variable that the node itself reads: that of a dotted name, or that of the
target of a field assignment. -/
def readName? : Node → Option String
  | .path segments => segments.head?
  | .setField object _ _ => object.head?
  | _ => Option.none

/-- The variables that the dotted names and the field assignments in a tree begin with,
in the order in which they are written. Methods of the classes are not part of the
tree. -/
def readNames (node : Node) : List String := node.subtrees.filterMap readName?

end Node

/-! ## Agreement -/

/-- Each of the names is bound to the same value in both scopes, or in neither. -/
def Scope.AgreeOn (names : Set String) (left right : Scope) : Prop :=
  ∀ name ∈ names, left.get? name = right.get? name

/-- Binding a name in both scopes to the same value keeps them in agreement. -/
theorem Scope.AgreeOn.insert {names : Set String} {left right : Scope}
    (h : left.AgreeOn names right) (bound : String) (v : Value) :
    (left.insert bound v).AgreeOn names (right.insert bound v) := by
  intro name hname
  rw [get?_insert, get?_insert, h name hname]

/-- The frames are the same but for variables other than the names. -/
structure Frame.AgreeOn (names : Set String) (left right : Frame) : Prop where
  machine : left.machine = right.machine
  scope : left.scope.AgreeOn names right.scope

/-- Both runs end in the same way, with the same value, `return` or error, and in frames
that agree; or both run out of fuel. -/
inductive Outcome.AgreeOn {α : Type} (names : Set String) :
    Outcome (Signal × Frame) (α × Frame) → Outcome (Signal × Frame) (α × Frame) →
    Prop where
  | done {a : α} {left right : Frame}
    (h : left.AgreeOn names right) : AgreeOn names (.done (a, left)) (.done (a, right))
  | failed {signal : Signal} {left right : Frame} (h : left.AgreeOn names right) :
    AgreeOn names (.failed (signal, left)) (.failed (signal, right))
  | starved : AgreeOn names .starved .starved

/-- The code does not tell frames apart that agree on the names. -/
def Exec.Respects {α : Type} (names : Set String) (x : Exec α) : Prop :=
  ∀ left right : Frame, left.AgreeOn names right → (x left).AgreeOn names (x right)

namespace Exec

variable {α β : Type} {names : Set String}

theorem Respects.bind {x : Exec α} {g : α → Exec β} (h : x.Respects names)
    (k : ∀ a, (g a).Respects names) :
    Exec.Respects names (x >>= g) := by
  intro left right hframes
  rw [Run.bind_apply, Run.bind_apply]
  have hx := h left right hframes
  generalize x left = atLeft, x right = atRight at hx
  cases hx with
  | done hafter => exact k _ _ _ hafter
  | failed hafter => exact .failed hafter
  | starved => exact .starved

/-- An action sees the machine alone. -/
theorem respects_ofAction (x : Action α) : (Exec.ofAction x).Respects names := by
  rintro ⟨left, machine⟩ ⟨right, _⟩ ⟨rfl, hscope⟩
  simp only [Exec.ofAction]
  cases x machine with
  | done r => exact .done ⟨rfl, hscope⟩
  | failed r => exact .failed ⟨rfl, hscope⟩
  | starved => exact .starved

/-- A lookup that finds the same in scopes that agree. -/
theorem respects_ofLookup {lookup : Heap → Scope → Except EvalError α}
    (h : ∀ heap left right,
      Scope.AgreeOn names left right → lookup heap left = lookup heap right) :
    (Node.ofLookup lookup).Respects names := by
  rintro ⟨left, machine⟩ ⟨right, _⟩ ⟨rfl, hscope⟩
  simp only [Node.ofLookup, h machine.heap left right hscope]
  cases lookup machine.heap right with
  | ok a => exact .done ⟨rfl, hscope⟩
  | error e => exact .failed ⟨rfl, hscope⟩

theorem respects_bindName (name : String) (v : Value) :
    (Exec.bindName name v).Respects names :=
  fun _ _ h => .done ⟨h.machine, h.scope.insert name v⟩

/-- A `return` that is caught is the same in both runs. -/
theorem Respects.catchReturn {x : Exec Value} (h : x.Respects names) :
    (Exec.catchReturn x).Respects names := by
  intro left right hframes
  simp only [Exec.catchReturn]
  have hx := h left right hframes
  generalize x left = atLeft, x right = atRight at hx
  cases hx with
  | done hafter => exact .done hafter
  | @failed signal _ _ hafter =>
    cases signal with
    | returned v => exact .done hafter
    | error e => exact .failed hafter
  | starved => exact .starved

end Exec

/-! ## Dotted names -/

namespace Path

variable {classes : ClassTable} {heap : Heap} {names : Set String} {left right : Scope}
  {path : List String}

/-- Of a scope a dotted name reads its first segment. -/
theorem resolve_of_agreeOn (hpath : ∀ name ∈ path.head?, name ∈ names)
    (h : left.AgreeOn names right) :
    resolve classes heap left path = resolve classes heap right path := by
  cases path with
  | nil => rfl
  | cons first rest => simp only [resolve, h first (hpath first rfl)]

theorem target_of_agreeOn (hpath : ∀ name ∈ path.head?, name ∈ names)
    (h : left.AgreeOn names right) (field : String) :
    target classes heap left path field = target classes heap right path field := by
  simp only [target, resolve_of_agreeOn hpath h]

end Path

/-! ## Trees -/

theorem respects_variableRules (classes : ClassTable) (names : Set String) :
    VariableRules classes (fun t => ∀ name ∈ t.readName?, name ∈ names)
      (Exec.Respects names) where
  pure _ _ _ h := .done h
  bind h k := h.bind k
  ofAction x := Exec.respects_ofAction x
  returned _ _ _ h := .failed h
  catchReturn h := h.catchReturn
  path _ hpath := Exec.respects_ofLookup fun _ _ _ => Path.resolve_of_agreeOn hpath
  target _ field _ hpath :=
    Exec.respects_ofLookup fun _ _ _ h => Path.target_of_agreeOn hpath h field
  assign name _ v _ := Exec.respects_bindName name v
  define _ _ := Exec.respects_bindName _ _

/-- Whichever tree runs in two scopes that agree on some names, those that the tree
reads among them, and on the same machine: both runs yield the same value, return the
same value or fail with the same error, or neither ends; they leave the same heap and
the same output, and scopes that agree on the names again. -/
theorem sees_only_names_it_reads {classes : ClassTable} {fuel : Nat} {node : Node}
    {names : Set String} (hnames : ∀ name ∈ node.readNames, name ∈ names)
    {left right : Scope} (hscopes : left.AgreeOn names right) (machine : Machine) :
    (node.exec classes (.within classes fuel) ⟨left, machine⟩).AgreeOn names
      (node.exec classes (.within classes fuel) ⟨right, machine⟩) := by
  have hrespects : (node.exec classes (.within classes fuel)).Respects names := by
    refine Node.exec_variables (respects_variableRules classes names) node
      fun t ht name hname => ?_
    exact hnames name (List.mem_filterMap.mpr ⟨t, ht, hname⟩)
  exact hrespects ⟨left, machine⟩ ⟨right, machine⟩ ⟨rfl, hscopes⟩

/-- Keeps `x` in `y` and in the box, and then fills the box anew, which fails. -/
def refillNode : Node :=
  .block [.assign "y" (.path ["x"]), .setField ["b"] "content" (.path ["y"]),
    .ret fillCall]

/-- The one scope has a variable `z`, the other a variable `w`, and neither has `y` when
the tree starts. -/
theorem sees_only_names_it_reads_refill :
    refillNode.readNames = ["x", "b", "y", "b"] ∧
    (fillFrame [] [("z", .number 1)]).scope.AgreeOn {"b", "x", "y"}
      (fillFrame [] [("w", .none)]).scope ∧
    refillNode.exec fillClasses (.within fillClasses 1)
      (fillFrame [] [("z", .number 1)]) =
      .failed (.error (.binaryMismatch (.arith .add) "Number" "None"),
        fillFrame [("content", .number 1)] [("z", .number 1), ("y", .number 7)]) ∧
    (refillNode.exec fillClasses (.within fillClasses 1)
      (fillFrame [] [("z", .number 1)])).AgreeOn {"b", "x", "y"}
      (refillNode.exec fillClasses (.within fillClasses 1)
        (fillFrame [] [("w", .none)])) := by
  have hnames : refillNode.readNames = ["x", "b", "y", "b"] := by decide
  have hscopes : (fillFrame [] [("z", .number 1)]).scope.AgreeOn {"b", "x", "y"}
      (fillFrame [] [("w", .none)]).scope := by
    rintro name (rfl | rfl | rfl) <;> rfl
  refine ⟨hnames, hscopes, by decide +kernel, ?_⟩
  refine sees_only_names_it_reads ?_ hscopes (fillFrame [] []).machine
  rw [hnames]
  simp

end Mint
