import Mint.Machine

/-!
# Dotted names

The first segment of a dotted name is a variable and every later one a field of the
instance that the segments before it lead to. Resolving a name changes nothing.
-/

namespace Mint.Path

/-- Follows `rest` from `value`, which is what the segment `last` of the dotted name
`whole` leads to. -/
def follow (classes : ClassTable) (heap : Heap) (whole : List String) (last : String)
    (value : Value) :
    List String → Except EvalError Value
  | [] => .ok value
  | field :: rest =>
    match value with
    | .inst a =>
      match heap.field? a field with
      | some next => follow classes heap whole field next rest
      | none => .error (.undefined whole)
    | other => .error (.invalidPath whole last (other.typeName classes heap))

/-- The value that a dotted name leads to. -/
def resolve (classes : ClassTable) (heap : Heap) (scope : Scope) (path : List String) :
    Except EvalError Value :=
  match path with
  | [] => .error (.undefined [])
  | first :: rest =>
    match scope.get? first with
    | some value => follow classes heap path first value rest
    | none => .error (.undefined path)

/-- The address of the instance that a dotted name leads to, for storing into its field
`field`. -/
def target (classes : ClassTable) (heap : Heap) (scope : Scope) (object : List String)
    (field : String) :
    Except EvalError Address :=
  match resolve classes heap scope object with
  | .error e => .error e
  | .ok (.inst a) => .ok a
  | .ok other =>
    .error (.invalidPath (object ++ [field]) (object.getLastD "")
      (other.typeName classes heap))

end Mint.Path
