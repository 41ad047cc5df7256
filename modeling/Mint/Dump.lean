import Mint.Heap
import Mint.Text.Extending
import Mint.Text.Invisible

/-!
# Dumps

The structure of trees, classes and values spelled out on one line, for inspection.
Lists stand in square brackets, records in braces with their field names, and texts in
double quotes.

A class is spelled out with its methods and its parent wherever it is mentioned. The
classes mentioned by a class come before it in the table, so the number of a class
bounds how deep its dump nests.
-/

namespace Mint

namespace Dump

/-- Records: a name and its fields. -/
def record (name : String) (fields : List (String × String)) : String :=
  let shown := fields.map fun (field, value) => field ++ ": " ++ value
  name ++ " \x7b " ++ ", ".intercalate shown ++ " \x7d"

/-- A constructor and its arguments. -/
def applied (name : String) (args : List String) : String :=
  name ++ "(" ++ ", ".intercalate args ++ ")"

/-- A list. -/
def listed (items : List String) : String :=
  "[" ++ ", ".intercalate items ++ "]"

/-- Whether a character is shown as it is: it leaves a mark, and one of its own. -/
def isPrintable (c : Char) : Bool := !isInvisible c && !isExtending c

/-- A character as it stands between double quotes. -/
def quotedChar (c : Char) : String :=
  if c = '"' then "\\\""
  else if c = '\\' then "\\\\"
  else if c = '\n' then "\\n"
  else if c = '\t' then "\\t"
  else if c = '\r' then "\\r"
  else if c.toNat = 0 then "\\0"
  else if isPrintable c then String.singleton c
  else "\\u\x7b" ++ String.ofList (Nat.toDigits 16 c.toNat) ++ "\x7d"

/-- A text in double quotes. -/
def quoted (text : String) : String :=
  "\"" ++ String.join (text.toList.map quotedChar) ++ "\""

/-- A list of texts. -/
def names (texts : List String) : String := listed (texts.map quoted)

/-- A truth value. -/
def truth (value : Bool) : String := if value then "true" else "false"

/-- Something that may be missing. -/
def optional : Option String → String
  | none => "None"
  | some text => applied "Some" [text]

end Dump

open Dump

/-- A constant. -/
def Literal.dump : Literal → String
  | number value => applied "Number" [numberText value]
  | text value => applied "String" [quoted value]
  | truth value => applied "Bool" [Dump.truth value]

/-- The name of an operation in a dump. -/
def ArithOp.label : ArithOp → String
  | add => "Add"
  | sub => "Sub"
  | mul => "Mult"
  | div => "Div"

/-- The name of a connective in a dump. -/
def LogicOp.label : LogicOp → String
  | and => "And"
  | or => "Or"

namespace Node

variable (classText : ClassId → String)

mutual

/-- A tree, its classes written by `classText`. -/
def dump : Node → String
  | .lit value => applied "Constant" [value.dump]
  | .none => "NoneConst"
  | .path segments => applied "VariableValue" [names segments]
  | .assign name value =>
    record "Assignment" [("name", quoted name), ("value", dump value)]
  | .setField object field value =>
    record "FieldAssignment" [("object", names object), ("field", quoted field),
      ("value", dump value)]
  | .arith op left right => applied op.label [dump left, dump right]
  | .logic op left right => applied op.label [dump left, dump right]
  | .not operand => applied "Not" [dump operand]
  | .compare op left right =>
    record "Comparison" [("comparator", op.name), ("lhs", dump left), ("rhs", dump right)]
  | .ifThen condition yes =>
    record "IfElse" [("condition", dump condition), ("if_body", dump yes),
      ("else_body", optional Option.none)]
  | .ifElse condition yes no =>
    record "IfElse"
      [("condition", dump condition), ("if_body", dump yes),
        ("else_body", optional (some (dump no)))]
  | .block statements => applied "Compound" [listed (dumpAll statements)]
  | .ret value => applied "Return" [dump value]
  | .body inner => applied "MethodBody" [dump inner]
  | .define cls => applied "ClassDefinition" [classText cls]
  | .create cls args =>
    record "NewInstance" [("class", classText cls), ("args", listed (dumpAll args))]
  | .print args => applied "Print" [listed (dumpAll args)]
  | .str operand => applied "Stringify" [dump operand]
  | .call object method args =>
    record "MethodCall"
      [("object", dump object), ("method", quoted method),
        ("args", listed (dumpAll args))]

/-- Trees in order. -/
def dumpAll : List Node → List String
  | [] => []
  | first :: rest => dump first :: dumpAll rest

end

end Node

/-- A method, the classes in its body written by `classText`. -/
def Method.dump (classText : ClassId → String) (method : Method) : String :=
  record "Method"
    [("name", quoted method.name), ("params", names method.params),
      ("body", method.body.dump classText)]

/-- A class, the classes it mentions written by `classText`. -/
def Class.dump (classText : ClassId → String) (cls : Class) : String :=
  let entries := cls.ownMethods.map fun m => quoted m.name ++ ": " ++ m.dump classText
  record "Class"
    [("name", quoted cls.name), ("methods", "\x7b" ++ ", ".intercalate entries ++ "\x7d"),
      ("parent", optional (cls.parent.map classText))]

namespace ClassTable

/-- A class of the table, mentions of classes followed `fuel` deep. -/
def dumpWithin (table : ClassTable) : Nat → ClassId → String
  | 0, _ => ""
  | fuel + 1, i => (table.get i).dump (dumpWithin table fuel)

/-- A class of the table. -/
def dump (table : ClassTable) (i : ClassId) : String := table.dumpWithin (i + 1) i

end ClassTable

/-- A value. Of an instance only the class and the names of the fields are shown, in
order: fields may lead back to the instance. -/
def Value.dump (classes : ClassTable) (heap : Heap) : Value → String
  | .none => "None"
  | .truth value => (Literal.truth value).dump
  | .number value => (Literal.number value).dump
  | .text value => (Literal.text value).dump
  | .cls id => applied "Class" [classes.dump id]
  | .inst a =>
    let fields := (heap.object a).fields.names.mergeSort (fun x y => decide (x ≤ y))
    applied "Instance"
      [record "ClassInstance" [("class", quoted (classes.get (heap.classOf a)).name),
        ("fields", names fields)]]

end Mint
