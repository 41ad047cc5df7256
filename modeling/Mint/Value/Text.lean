import Mint.Heap

/-!
# What values are called

The names of types and the texts of values that can be told without running any code of
the program.
-/

namespace Mint

/-- The name of a value's type. That of an instance is the name of its class. -/
def Value.typeName (classes : ClassTable) (heap : Heap) : Value → String
  | .none => "None"
  | .truth _ => "Bool"
  | .number _ => "Number"
  | .text _ => "String"
  | .cls _ => "Class"
  | .inst a => (classes.get (heap.classOf a)).name

/-- An address as a number in hexadecimal. Different instances show different numbers,
all of them twelve digits long until there are more than ten million million
instances. -/
def Address.text (a : Address) : String :=
  "0x" ++ String.ofList (Nat.toDigits 16 (0x550000000000 + 16 * a))

/-- The text of a value that is made without running any method. -/
def Value.plainText (classes : ClassTable) (heap : Heap) : Value → String
  | .none => "None"
  | .truth true => "True"
  | .truth false => "False"
  | .number value => numberText value
  | .text value => value
  | .cls id => "Class " ++ (classes.get id).name
  | .inst a =>
    "<" ++ (classes.get (heap.classOf a)).name ++ " object at " ++ Address.text a ++ ">"

end Mint
