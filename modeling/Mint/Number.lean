/-!
# Arithmetic

Numbers are signed 64-bit integers. An operation is carried out on the integers; its
result is taken if it is in range and refused otherwise. Division truncates toward zero.
-/

namespace Mint

/-- The decimal text of a number. -/
def numberText (value : Int64) : String := toString value.toInt

/-- The number that equals an integer, if the range holds it. -/
def number? (value : Int) : Option Int64 :=
  if Int64.minValue.toInt ≤ value ∧ value ≤ Int64.maxValue.toInt then
    some (Int64.ofInt value) else none

/-- The operations on numbers. -/
inductive ArithOp where
  | add
  | sub
  | mul
  | div
deriving DecidableEq

namespace ArithOp

/-- How the operation is written. -/
def symbol : ArithOp → String
  | add => "+"
  | sub => "-"
  | mul => "*"
  | div => "/"

/-- How the operation is called. -/
def noun : ArithOp → String
  | add => "addition"
  | sub => "subtraction"
  | mul => "multiplication"
  | div => "division"

end ArithOp

/-- Why an operation has no result. -/
inductive ArithFault where
  | divisionByZero
  | overflow (op : ArithOp)
deriving DecidableEq

namespace ArithOp

/-- The operation on the integers. -/
def exact : ArithOp → Int → Int → Int
  | add, a, b => a + b
  | sub, a, b => a - b
  | mul, a, b => a * b
  | div, a, b => a.tdiv b

/-- The operation on numbers. -/
def apply (op : ArithOp) (a b : Int64) : Except ArithFault Int64 :=
  if op = div ∧ b = 0 then .error .divisionByZero
  else
    match number? (op.exact a.toInt b.toInt) with
    | some value => .ok value
    | none => .error (.overflow op)

end ArithOp

end Mint
