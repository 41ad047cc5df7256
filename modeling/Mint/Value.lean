import Mint.Node

/-!
# Values

A value is `None`, a primitive, a class, or an instance. Classes and instances are
references: a class is its number in the class table and an instance its address in the
heap, so equality of values is identity of what they refer to.
-/

namespace Mint

/-- The place of an instance in the heap. -/
abbrev Address := Nat

/-- A value of the language. -/
inductive Value where
  | none
  | truth (value : Bool)
  | number (value : Int64)
  | text (value : String)
  | cls (id : ClassId)
  | inst (address : Address)
deriving DecidableEq

namespace Value

/-- What counts as true in a condition: `True`, numbers other than zero, texts other
than the empty one. -/
def isTrue : Value → Bool
  | truth value => value
  | number value => value != 0
  | text value => value != ""
  | none => false
  | cls _ => false
  | inst _ => false

/-- Whether the value is `None`. -/
def isNone (v : Value) : Bool := v == none

end Value

/-- The value of a constant. -/
def Literal.value : Literal → Value
  | number value => .number value
  | text value => .text value
  | truth value => .truth value

end Mint
