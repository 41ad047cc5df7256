import Mint.Node

/-!
# Classes

A class has a name, at most one parent and a list of methods. Classes live in a table
and refer to each other by number; a parent always has a smaller number than its
children, so every line of ancestors ends.

A method is looked up by name alone, in the nearest class of the line that defines it,
and there the last definition counts. The number of parameters is checked afterwards: a
nearer method with another number of parameters hides the farther ones.
-/

namespace Mint

/-- A method. The parameters do not include `self`. -/
structure Method where
  name : String
  params : List String
  body : Node
deriving DecidableEq

/-- The name under which a method knows the instance it was called on. -/
def Method.receiverName : String := "self"

/-- A class as it was declared: methods in the order of their definitions, repetitions
included. -/
structure Class where
  name : String
  parent : Option ClassId
  methods : List Method
deriving DecidableEq

namespace Class

/-- The nameless class without methods. It stands in for numbers that are not in a
table. -/
def blank : Class := ⟨"", none, []⟩

instance : Inhabited Class := ⟨blank⟩

/-- The method that the class itself defines under `name`: the last of that name. -/
def own? (cls : Class) (name : String) : Option Method :=
  cls.methods.reverse.find? (fun m => m.name == name)

/-- Leaves of several methods of one name the last. -/
def lastOfEachName : List Method → List Method
  | [] => []
  | m :: rest =>
    if rest.any (fun other => other.name == m.name) then lastOfEachName rest
    else m :: lastOfEachName rest

/-- The methods of the class that can be reached by name. -/
def ownMethods (cls : Class) : List Method := lastOfEachName cls.methods

end Class

/-- All classes of a program, in the order in which their declarations were completed. -/
structure ClassTable where
  classes : Array Class
deriving DecidableEq

namespace ClassTable

/-- The table of a program without classes. -/
def empty : ClassTable := ⟨#[]⟩

instance : EmptyCollection ClassTable := ⟨empty⟩

/-- The number of classes. -/
def size (table : ClassTable) : Nat := table.classes.size

/-- The class with a number. -/
def get (table : ClassTable) (i : ClassId) : Class := table.classes.getD i Class.blank

/-- Adds a class. Its number is the size of the table before. -/
def push (table : ClassTable) (cls : Class) : ClassTable := ⟨table.classes.push cls⟩

/-- The latest class of that name. -/
def latest? (table : ClassTable) (name : String) : Option ClassId :=
  (List.range table.size).reverse.find? (fun i => (table.get i).name == name)

/-- A class and its ancestors, the nearest first, as far as `fuel` goes. -/
def lineageWithin (table : ClassTable) : Nat → ClassId → List Class
  | 0, _ => []
  | fuel + 1, i =>
    let cls := table.get i
    match cls.parent with
    | none => [cls]
    | some parent => cls :: lineageWithin table fuel parent

/-- A class and its ancestors, the nearest first. Parents come earlier in the table, so
the line of class `i` has at most `i + 1` members. -/
def lineage (table : ClassTable) (i : ClassId) : List Class :=
  lineageWithin table (i + 1) i

/-- The method that `name` means in class `i`. -/
def method? (table : ClassTable) (i : ClassId) (name : String) : Option Method :=
  (table.lineage i).findSome? (fun cls => cls.own? name)

/-- The method that `name` means in class `i`, provided that it takes `arity`
arguments. -/
def methodTaking? (table : ClassTable) (i : ClassId) (name : String) (arity : Nat) :
    Option Method :=
  (table.method? i name).filter (fun m => m.params.length == arity)

/-- Whether class `i` understands `name` with `arity` arguments: the method that `name`
means must take that many. -/
def hasMethod (table : ClassTable) (i : ClassId) (name : String) (arity : Nat) : Bool :=
  (table.method? i name).any fun m => m.params.length == arity

/-- The test and the look-up decide on the number of parameters each for itself, and in
the same way. -/
theorem hasMethod_eq_isSome (table : ClassTable) (i : ClassId) (name : String)
    (arity : Nat) :
    table.hasMethod i name arity = (table.methodTaking? i name arity).isSome := by
  rw [hasMethod, methodTaking?]
  cases table.method? i name with
  | none => rfl
  | some m =>
    rw [Option.any_some, Option.filter_some]
    cases m.params.length == arity <;> rfl

theorem hasMethod_iff_methodTaking? {table : ClassTable} {i : ClassId} {name : String}
    {arity : Nat} :
    table.hasMethod i name arity = true ↔
    ∃ m, table.methodTaking? i name arity = some m := by
  rw [hasMethod_eq_isSome, Option.isSome_iff_exists]

@[simp] theorem size_push (table : ClassTable) (cls : Class) :
    (table.push cls).size = table.size + 1 := by
  simp [size, push]

@[simp] theorem get_push_size (table : ClassTable) (cls : Class) :
    (table.push cls).get table.size = cls := by
  simp [get, push, size]

theorem get_push_of_lt {table : ClassTable} {i : ClassId} (cls : Class)
    (h : i < table.size) :
    (table.push cls).get i = table.get i := by
  have h' : i < table.classes.size := h
  simp only [get, push, Array.getD_eq_getD_getElem?, Array.getElem?_push,
    Nat.ne_of_lt h', if_false]

/-- Past the end of the table stands the class without methods. -/
theorem get_of_size_le {table : ClassTable} {i : ClassId} (h : table.size ≤ i) :
    table.get i = Class.blank := by
  have h' : table.classes.size ≤ i := h
  rw [get, Array.getD_eq_getD_getElem?, Array.getElem?_eq_none h']
  rfl

theorem get_push (table : ClassTable) (cls : Class) (i : ClassId) :
    (table.push cls).get i = if i = table.size then cls else table.get i := by
  rcases Nat.lt_trichotomy i table.size with hlt | rfl | hgt
  · rw [get_push_of_lt cls hlt, if_neg (Nat.ne_of_lt hlt)]
  · rw [get_push_size, if_pos rfl]
  · rw [get_of_size_le (by rw [size_push]; exact hgt), if_neg (Nat.ne_of_gt hgt),
      get_of_size_le (Nat.le_of_lt hgt)]

theorem lt_of_latest? {table : ClassTable} {name : String} {i : ClassId}
    (h : table.latest? name = some i) :
    i < table.size := by
  have hmem := List.mem_of_find?_eq_some h
  rwa [List.mem_reverse, List.mem_range] at hmem

end ClassTable

end Mint
