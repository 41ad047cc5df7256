import Mint.Outcome
import Mint.Sink
import Mint.Value.Text

/-!
# The machine

What running code works on. An `Action` may change the heap and write output; it has no
variables. An `Exec` runs in a scope as well, and besides failing it can end in a
`return` that looks for its method.
-/

namespace Mint

/-- The operators that take two operands and no comparison. -/
inductive BinaryOp where
  | arith (op : ArithOp)
  | logic (op : LogicOp)
deriving DecidableEq

/-- How the operator is written. -/
def BinaryOp.symbol : BinaryOp → String
  | arith op => op.symbol
  | logic op => op.symbol

/-- Why a program failed. Operands are given by the names of their types. -/
inductive EvalError where
  /-- A dotted name that is not bound. -/
  | undefined (path : List String)
  /-- A dotted name goes through something that is no instance, namely what `segment`
  leads to. -/
  | invalidPath (path : List String) (segment type : String)
  /-- The class has no method of that name and number of arguments. -/
  | noSuchMethod (method cls : String) (arity : Nat)
  | notAnInstance (method type : String)
  | binaryMismatch (op : BinaryOp) (left right : String)
  /-- `not` applied to something that has no truth value. -/
  | notMismatch (operand : String)
  | incomparable (left right : String)
  /-- A comparison method returned something other than a truth value. -/
  | nonBool (method type : String)
  | arith (fault : ArithFault)
  /-- A `return` that no method body encloses. -/
  | strayReturn
  | output (fault : Sink.Fault)
deriving DecidableEq

/-- A dotted name as it is written. -/
def dotted (path : List String) : String := ".".intercalate path

/-- How the error is described to the user. -/
def EvalError.message : EvalError → String
  | undefined path => "undefined variable: " ++ dotted path
  | invalidPath path segment type =>
    "invalid path `" ++ dotted path ++ "`: `" ++ segment ++ "` is " ++ type ++
      ", not a class instance"
  | noSuchMethod method cls arity =>
    "method " ++ method ++ " taking " ++ toString arity ++
      " argument(s) wasn't found in class " ++ cls
  | notAnInstance method type => "cannot call method " ++ method ++ " on " ++ type
  | binaryMismatch op left right =>
    "operator `" ++ op.symbol ++ "` cannot be applied to " ++ left ++ " and " ++ right
  | notMismatch operand => "operator `not` cannot be applied to " ++ operand
  | incomparable left right => "cannot compare " ++ left ++ " with " ++ right
  | nonBool method type => method ++ " must return a Bool, got " ++ type
  | arith .divisionByZero => "division by zero"
  | arith (.overflow op) => "integer overflow in " ++ op.noun
  | strayReturn => "return outside of a method body"
  | output fault => "failed to write output: " ++ fault.message

/-- What all running code shares. -/
structure Machine where
  heap : Heap
  sink : Sink
deriving DecidableEq

namespace Machine

/-- A machine without instances. -/
def start (sink : Sink) : Machine := ⟨∅, sink⟩

end Machine

/-- Code that has no variables. -/
abbrev Action := Run EvalError Machine

namespace Action

/-- Writes a text. -/
def write (text : String) : Action Unit := fun m =>
  match m.sink.write text.toUTF8 with
  | (none, sink) => .done ((), { m with sink })
  | (some fault, sink) => .failed (.output fault, { m with sink })

/-- Flushes the output. -/
def flush : Action Unit := fun m =>
  match m.sink.flush with
  | (none, sink) => .done ((), { m with sink })
  | (some fault, sink) => .failed (.output fault, { m with sink })

/-- A new instance of a class. -/
def allocate (cls : ClassId) : Action Value := fun m =>
  .done (.inst m.heap.size, { m with heap := m.heap.allocate cls })

/-- Sets a field of an instance. -/
def setField (a : Address) (field : String) (value : Value) : Action Unit :=
  Run.modify fun m => { m with heap := m.heap.setField a field value }

/-- The heap as it is. -/
def heap : Action Heap := Run.gets fun m => m.heap

end Action

/-- Why a piece of code did not yield a value. -/
inductive Signal where
  /-- A `return` on its way to the method body around it. -/
  | returned (value : Value)
  | error (cause : EvalError)
deriving DecidableEq

/-- The cause that a signal becomes where no `return` may pass. -/
def Signal.cause : Signal → EvalError
  | returned _ => .strayReturn
  | error cause => cause

/-- The variables in sight and the machine. -/
structure Frame where
  scope : Scope
  machine : Machine
deriving DecidableEq

/-- Code that runs in a scope. -/
abbrev Exec := Run Signal Frame

namespace Exec

/-- An action leaves the scope alone. -/
@[inline] def ofAction {α : Type} (action : Action α) : Exec α := fun f =>
  match action f.machine with
  | .done (a, machine) => .done (a, { f with machine })
  | .failed (e, machine) => .failed (.error e, { f with machine })
  | .starved => .starved

/-- Binds a variable. -/
def bindName (name : String) (value : Value) : Exec Unit :=
  Run.modify fun f => { f with scope := f.scope.insert name value }

/-- Ends a `return` that comes out of `code`; its value becomes the value of the whole. -/
@[inline] def catchReturn (code : Exec Value) : Exec Value := fun f =>
  match code f with
  | .failed (.returned value, f') => .done (value, f')
  | outcome => outcome

/-- Runs code in a scope of its own. A `return` that comes out of it is an error. -/
def inScope {α : Type} (scope : Scope) (code : Exec α) :
    Action (α × Scope) := fun machine =>
  match code ⟨scope, machine⟩ with
  | .done (a, f) => .done ((a, f.scope), f.machine)
  | .failed (signal, f) => .failed (signal.cause, f.machine)
  | .starved => .starved

end Exec

end Mint
