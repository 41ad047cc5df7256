import Mint.Dispatch
import Mint.Path

/-!
# Evaluation

`Node.exec` executes a tree by recursion on the tree. Where a tree calls a method it
uses a `Dispatch`; `callMethod` and `renderValue` supply one whose calls may nest as
deep as their fuel. Fuel is spent on entering a method body and on nothing else, so
running out of it means that calls nest too deep.

The order of effects is part of the meaning:

* Operands and arguments are evaluated from left to right, and an operator evaluates
  both of its operands.
* The target of a field assignment is resolved before its value is evaluated.
* A call that finds no method yields `None` and evaluates no argument. Creating an
  instance evaluates its arguments only if there is an `__init__` that takes them.
* `print` writes a separator, the text of an argument and the line end one by one, each
  before the next argument is evaluated.
-/

namespace Mint

namespace Node

variable (classes : ClassTable) (d : Dispatch)

/-- A lookup in the scope and the heap, as code. -/
def ofLookup {α : Type} (lookup : Heap → Scope → Except EvalError α) : Exec α := fun f =>
  match lookup f.machine.heap f.scope with
  | .ok a => .done (a, f)
  | .error e => .failed (.error e, f)

mutual

/-- Executes a node. -/
def exec : Node → Exec Value
  | .lit value => return value.value
  | .none => return .none
  | .path segments => ofLookup fun heap scope => Path.resolve classes heap scope segments
  | .assign name value => do
    let v ← exec value
    Exec.bindName name v
    return v
  | .setField object field value => do
    let a ← ofLookup fun heap scope => Path.target classes heap scope object field
    let v ← exec value
    Exec.ofAction (Action.setField a field v)
    return v
  | .arith op left right => do
    let l ← exec left
    let r ← exec right
    Exec.ofAction (d.arith classes op l r)
  | .logic op left right => do
    let l ← exec left
    let r ← exec right
    Exec.ofAction (Dispatch.logic classes op l r)
  | .not operand => do
    let v ← exec operand
    Exec.ofAction (Dispatch.negate classes v)
  | .compare op left right => do
    let l ← exec left
    let r ← exec right
    return .truth (← Exec.ofAction (d.compare classes op l r))
  | .ifThen condition yes => do
    if (← exec condition).isTrue then
      exec yes
    else
      return .none
  | .ifElse condition yes no => do
    if (← exec condition).isTrue then
      exec yes
    else
      exec no
  | .block statements => do
    execAll statements
    return .none
  | .ret value => do
    let v ← exec value
    Run.fail (.returned v)
  | .body inner => Exec.catchReturn (exec inner)
  | .define cls => do
    Exec.bindName (classes.get cls).name (.cls cls)
    return .cls cls
  | .create cls args => do
    let created ← Exec.ofAction (Action.allocate cls)
    if classes.hasMethod cls Special.init args.length then
      let values ← evalAll args
      let _ ← Exec.ofAction (d.call created Special.init values)
    return created
  | .print args => do
    printAll false args
    return .none
  | .str operand => do
    let v ← exec operand
    return .text (← Exec.ofAction (d.render v))
  | .call object method args => do
    let receiver ← exec object
    if receiver.understands classes (← Exec.ofAction Action.heap) method args.length then
      let values ← evalAll args
      Exec.ofAction (d.call receiver method values)
    else
      return .none

/-- Executes statements in order. -/
def execAll : List Node → Exec Unit
  | [] => return ()
  | first :: rest => do
    let _ ← exec first
    execAll rest

/-- Evaluates arguments in order. -/
def evalAll : List Node → Exec (List Value)
  | [] => return []
  | first :: rest => do
    let v ← exec first
    return v :: (← evalAll rest)

/-- Prints arguments in order and ends the line. With `separate` a space goes before the
first of them. -/
def printAll : Bool → List Node → Exec Unit
  | _, [] => Exec.ofAction (Action.write "\n")
  | separate, first :: rest => do
    let v ← exec first
    if separate then
      Exec.ofAction (Action.write " ")
    let text ← Exec.ofAction (d.render v)
    Exec.ofAction (Action.write text)
    printAll true rest

end

end Node

/-- The scope in which a method starts: `self`, then the parameters. A later parameter
of the same name wins. -/
def Method.frame (method : Method) (receiver : Value) (args : List Value) : Scope :=
  (method.params.zip args).foldl (fun scope (param, arg) => scope.insert param arg)
    ((∅ : Scope).insert Method.receiverName receiver)

/-- Runs the body of a method. -/
def Method.run (classes : ClassTable) (d : Dispatch) (method : Method) (receiver : Value)
    (args : List Value) : Action Value := do
  let (value, _) ← Exec.inScope (method.frame receiver args) (method.body.exec classes d)
  return value

mutual

/-- Calls a method of an instance. -/
def callMethod (classes : ClassTable) : Nat → Value → String → List Value → Action Value
  | 0, receiver, method, args => do
    let heap ← Action.heap
    let _ ← Run.ofExcept (receiver.methodFor classes heap method args.length)
    Run.starve
  | fuel + 1, receiver, method, args => do
    let heap ← Action.heap
    let found ← Run.ofExcept (receiver.methodFor classes heap method args.length)
    found.run classes ⟨callMethod classes fuel, renderValue classes fuel⟩ receiver args

/-- The text of a value: for an instance with a `__str__` method the text of what that
method returns. -/
def renderValue (classes : ClassTable) : Nat → Value → Action String
  | 0, v => do
    let heap ← Action.heap
    if v.understands classes heap Special.str 0 then
      Run.starve
    else
      return v.plainText classes heap
  | fuel + 1, v => do
    let heap ← Action.heap
    if v.understands classes heap Special.str 0 then
      let result ← callMethod classes fuel v Special.str []
      renderValue classes fuel result
    else
      return v.plainText classes heap

end

/-- Calls that may nest `fuel` deep. -/
def Dispatch.within (classes : ClassTable) (fuel : Nat) : Dispatch :=
  ⟨callMethod classes fuel, renderValue classes fuel⟩

end Mint
