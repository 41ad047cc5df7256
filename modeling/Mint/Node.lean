import Mint.Number

/-!
# Program trees

Mint does not tell statements from expressions: every node is executed and yields a
value, often `None`. Which nodes may stand where is a matter of the grammar and not of
this type.

Classes are not stored in the tree. A node names a class by its number in the class
table that goes with the tree, so that redeclaring a name later cannot change what a
node means.
-/

namespace Mint

/-- The number of a class in a class table. -/
abbrev ClassId := Nat

/-- A constant written in a program. -/
inductive Literal where
  | number (value : Int64)
  | text (value : String)
  | truth (value : Bool)
deriving DecidableEq

/-- The connectives. Both operands of a connective are always evaluated. -/
inductive LogicOp where
  | and
  | or
deriving DecidableEq

namespace LogicOp

/-- How the connective is written. -/
def symbol : LogicOp → String
  | and => "and"
  | or => "or"

/-- What the connective makes of two truth values. -/
def apply : LogicOp → Bool → Bool → Bool
  | and, a, b => a && b
  | or, a, b => a || b

end LogicOp

/-- The six comparisons. -/
inductive Comparator where
  | equal
  | notEqual
  | less
  | greater
  | lessOrEqual
  | greaterOrEqual
deriving DecidableEq

namespace Comparator

/-- Every comparison, once. -/
def all : List Comparator := [equal, notEqual, less, greater, lessOrEqual, greaterOrEqual]

/-- How the comparison is called. -/
def name : Comparator → String
  | equal => "Equal"
  | notEqual => "NotEqual"
  | less => "Less"
  | greater => "Greater"
  | lessOrEqual => "LessOrEqual"
  | greaterOrEqual => "GreaterOrEqual"

/-- The comparison called `name`. -/
def ofName? (name : String) : Option Comparator :=
  all.find? (fun c => c.name == name)

@[simp] theorem ofName?_name (c : Comparator) : ofName? c.name = some c := by
  cases c <;> decide

end Comparator

/-- A node of a program tree. -/
inductive Node where
  | lit (value : Literal)
  | none
  /-- A dotted name: a variable, then fields. -/
  | path (segments : List String)
  | assign (name : String) (value : Node)
  /-- Stores into a field of the instance that the dotted name `object` leads to. -/
  | setField (object : List String) (field : String) (value : Node)
  | arith (op : ArithOp) (left right : Node)
  | logic (op : LogicOp) (left right : Node)
  | not (operand : Node)
  | compare (op : Comparator) (left right : Node)
  | ifThen (condition yes : Node)
  | ifElse (condition yes no : Node)
  /-- Statements run in order for their effects. -/
  | block (statements : List Node)
  | ret (value : Node)
  /-- The boundary at which a `ret` beneath it ends. -/
  | body (inner : Node)
  /-- Binds a class to its own name. -/
  | define (cls : ClassId)
  /-- A new instance of a class. -/
  | create (cls : ClassId) (args : List Node)
  | print (args : List Node)
  /-- The text of a value, `str(x)`. -/
  | str (operand : Node)
  | call (object : Node) (method : String) (args : List Node)

instance : Inhabited Node := ⟨.none⟩

namespace Node

mutual

/-- Whether two trees are the same, by a walk through both. -/
def same : Node → Node → Bool
  | .lit a, .lit b => a == b
  | .none, .none => true
  | .path p, .path q => p == q
  | .assign x a, .assign y b => x == y && same a b
  | .setField p f a, .setField q g b => p == q && f == g && same a b
  | .arith op a a', .arith op' b b' => op == op' && same a b && same a' b'
  | .logic op a a', .logic op' b b' => op == op' && same a b && same a' b'
  | .not a, .not b => same a b
  | .compare op a a', .compare op' b b' => op == op' && same a b && same a' b'
  | .ifThen c a, .ifThen d b => same c d && same a b
  | .ifElse c a a', .ifElse d b b' => same c d && same a b && same a' b'
  | .block as, .block bs => sameAll as bs
  | .ret a, .ret b => same a b
  | .body a, .body b => same a b
  | .define i, .define j => i == j
  | .create i as, .create j bs => i == j && sameAll as bs
  | .print as, .print bs => sameAll as bs
  | .str a, .str b => same a b
  | .call a m as, .call b n bs => same a b && m == n && sameAll as bs
  | _, _ => false

/-- Whether two lists hold the same trees in the same order. -/
def sameAll : List Node → List Node → Bool
  | [], [] => true
  | a :: as, b :: bs => same a b && sameAll as bs
  | _, _ => false

end

mutual

theorem same_iff (a b : Node) : same a b = true ↔ a = b := by
  cases a <;> cases b <;> simp [same, same_iff, sameAll_iff, and_assoc]

theorem sameAll_iff (as bs : List Node) : sameAll as bs = true ↔ as = bs := by
  cases as <;> cases bs <;> simp [sameAll, same_iff, sameAll_iff]

end

instance : DecidableEq Node :=
  fun a b => decidable_of_iff (same a b = true) (same_iff a b)

end Node

end Mint
