import Mint.Machine

/-!
# Operations on values

Operators, comparisons and calls. Some of them run a method of an instance, under one of
the special names below. What it means to run a method is a parameter here: `Dispatch`
holds it, and `Mint.Eval` supplies it.
-/

namespace Mint

namespace Special

/-- Called on a new instance. -/
def init : String := "__init__"

/-- The text of an instance. -/
def str : String := "__str__"

/-- Equality of two instances. -/
def eq : String := "__eq__"

/-- Whether an instance comes before a value. -/
def lt : String := "__lt__"

/-- The sum of an instance and a value. -/
def add : String := "__add__"

end Special

/-- The ways in which an operation can run methods. -/
structure Dispatch where
  /-- Calls a method of an instance. -/
  call : Value → String → List Value → Action Value
  /-- The text of a value. -/
  render : Value → Action String

namespace Value

/-- Whether the value is an instance that understands `method` with `arity` arguments. -/
def understands (classes : ClassTable) (heap : Heap) (method : String) (arity : Nat) :
    Value → Bool
  | .inst a => classes.hasMethod (heap.classOf a) method arity
  | _ => false

/-- The method that a call means. -/
def methodFor (classes : ClassTable) (heap : Heap) (v : Value) (method : String)
    (arity : Nat) :
    Except EvalError Method :=
  match v with
  | .inst a =>
    let cls := heap.classOf a
    match classes.methodTaking? cls method arity with
    | some found => .ok found
    | Option.none => .error (.noSuchMethod method (classes.get cls).name arity)
  | other => .error (.notAnInstance method (other.typeName classes heap))

end Value

namespace Dispatch

variable (classes : ClassTable) (d : Dispatch)

/-- Fails because of the types of two operands. -/
def mismatch {α : Type} (cause : String → String → EvalError) (left right : Value) :
    Action α := do
  let heap ← Action.heap
  Run.fail (cause (left.typeName classes heap) (right.typeName classes heap))

/-- Calls a method that has to answer with a truth value. -/
def predicate (receiver : Value) (method : String) (arg : Value) : Action Bool := do
  match ← d.call receiver method [arg] with
  | .truth answer => return answer
  | other => Run.fail (.nonBool method (other.typeName classes (← Action.heap)))

/-- Equality: primitives of one type by value, instances by the method `__eq__` of the
left one. -/
def equal : Value → Value → Action Bool
  | .none, .none => return true
  | .truth a, .truth b => return a == b
  | .number a, .number b => return a == b
  | .text a, .text b => return a == b
  | .inst a, .inst b => predicate classes d (.inst a) Special.eq (.inst b)
  | left, right => mismatch classes .incomparable left right

/-- Order: primitives of one type by value, texts by their characters; an instance on
the left by its method `__lt__`. -/
def less : Value → Value → Action Bool
  | .truth a, .truth b => return !a && b
  | .number a, .number b => return a < b
  | .text a, .text b => return a < b
  | .inst a, right => do
    if (Value.inst a).understands classes (← Action.heap) Special.lt 1 then
      predicate classes d (.inst a) Special.lt right
    else
      mismatch classes .incomparable (.inst a) right
  | left, right => mismatch classes .incomparable left right

/-- The six comparisons in terms of two. What a comparison does not need it does not
run: `>` asks for equality only when `<` has answered no. -/
def compare (op : Comparator) (left right : Value) : Action Bool :=
  match op with
  | .equal => equal classes d left right
  | .notEqual => do return !(← equal classes d left right)
  | .less => less classes d left right
  | .greaterOrEqual => do return !(← less classes d left right)
  | .greater => do
    if ← less classes d left right then
      return false
    else
      return !(← equal classes d left right)
  | .lessOrEqual => do
    if ← less classes d left right then
      return true
    else
      equal classes d left right

/-- Arithmetic. Besides numbers, `+` joins texts and calls the method `__add__` of an
instance on the left, provided that there is something on the right. -/
def arith (op : ArithOp) (left right : Value) : Action Value :=
  match op, left, right with
  | op, .number a, .number b =>
    match op.apply a b with
    | .ok value => return .number value
    | .error fault => Run.fail (.arith fault)
  | .add, .text a, .text b => return .text (a ++ b)
  | .add, .inst a, right => do
    if right ≠ .none ∧
        (Value.inst a).understands classes (← Action.heap) Special.add 1 then
      d.call (.inst a) Special.add [right]
    else
      mismatch classes (.binaryMismatch (.arith .add)) (.inst a) right
  | op, left, right => mismatch classes (.binaryMismatch (.arith op)) left right

/-- The connectives have no truth value for `None`. -/
def logic (op : LogicOp) (left right : Value) : Action Value :=
  if left.isNone || right.isNone then
    mismatch classes (.binaryMismatch (.logic op)) left right
  else
    return .truth (op.apply left.isTrue right.isTrue)

/-- Negation has no truth value for `None`. -/
def negate (operand : Value) : Action Value := do
  if operand.isNone then
    Run.fail (.notMismatch (operand.typeName classes (← Action.heap)))
  else
    return .truth (!operand.isTrue)

end Dispatch

end Mint
