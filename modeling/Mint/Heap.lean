import Mint.Class
import Mint.Scope

/-!
# The heap

Instances live in a heap that only grows. An address is the number of instances
allocated before, so a new instance never has the address of an old one. The class of an
instance is fixed; its fields change.
-/

namespace Mint

/-- An instance: its class and its fields. -/
structure Object where
  cls : ClassId
  fields : Scope
deriving DecidableEq

/-- All instances, by address. -/
structure Heap where
  objects : Array Object
deriving DecidableEq

namespace Heap

/-- The heap without instances. -/
def empty : Heap := ⟨#[]⟩

instance : EmptyCollection Heap := ⟨empty⟩

/-- The number of instances. -/
def size (heap : Heap) : Nat := heap.objects.size

/-- The instance at an address. Evaluation uses no address that was not allocated; one
that was not reads as an instance without fields. -/
def object (heap : Heap) (a : Address) : Object := heap.objects.getD a ⟨0, ∅⟩

/-- The class of the instance at an address. -/
def classOf (heap : Heap) (a : Address) : ClassId := (heap.object a).cls

/-- A field of the instance at an address. -/
def field? (heap : Heap) (a : Address) (field : String) : Option Value :=
  (heap.object a).fields.get? field

/-- Adds an instance without fields. Its address is the size of the heap before. -/
def allocate (heap : Heap) (cls : ClassId) : Heap := ⟨heap.objects.push ⟨cls, ∅⟩⟩

/-- Sets a field of the instance at an address. -/
def setField (heap : Heap) (a : Address) (field : String) (value : Value) : Heap :=
  ⟨heap.objects.modify a fun o => { o with fields := o.fields.insert field value }⟩

@[simp] theorem size_allocate (heap : Heap) (cls : ClassId) :
    (heap.allocate cls).size = heap.size + 1 := by
  simp [size, allocate]

@[simp] theorem size_setField (heap : Heap) (a : Address) (field : String)
    (value : Value) :
    (heap.setField a field value).size = heap.size := by
  simp [size, setField]

@[simp] theorem object_allocate_size (heap : Heap) (cls : ClassId) :
    (heap.allocate cls).object heap.size = ⟨cls, ∅⟩ := by
  simp [object, allocate, size]

/-- Allocation leaves the older instances alone. -/
theorem object_allocate_of_lt {heap : Heap} {a : Address} (cls : ClassId)
    (h : a < heap.size) :
    (heap.allocate cls).object a = heap.object a := by
  have h' : a < heap.objects.size := h
  simp only [object, allocate, Array.getD_eq_getD_getElem?, Array.getElem?_push,
    Nat.ne_of_lt h', if_false]

/-- A write changes one field of one instance. -/
theorem object_setField {heap : Heap} {a : Address} (h : a < heap.size) (b : Address)
    (field : String) (value : Value) :
    (heap.setField a field value).object b =
      if b = a then
        { heap.object a with fields := (heap.object a).fields.insert field value }
      else heap.object b := by
  have h' : a < heap.objects.size := h
  by_cases hb : b = a
  · subst hb
    simp [object, setField, Array.getD_eq_getD_getElem?, Array.getElem_modify_self, h']
  · have hb' : a ≠ b := fun e => hb e.symm
    simp [object, setField, Array.getD_eq_getD_getElem?, Array.getElem?_modify, hb, hb']

end Heap

end Mint
