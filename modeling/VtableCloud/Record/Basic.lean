import VtableCloud.Element
import VtableCloud.Key
import VtableCloud.Word

/-!
# Class records

What is known of one dynamic class: the sub-vtables of its vtable group, with
their slot ranges, address points, parents and functions, and the values of the
slots. All slot numbers count from the start of the vtable of the class.
-/

namespace VtableCloud

/-- A virtual function and its distance, in slots, from the start of the sub-vtable
that lists it. -/
structure FunctionEntry where
  name : String
  offset : Nat
  deriving DecidableEq, Repr, Inhabited

/-- A sub-vtable holds the slots `start` to `last`, both included. Pointers to it
point at the slot `addressPoint`. Slot numbers are machine words, and none of a sub-vtable
is greater than its last. -/
structure SubVtable where
  order : Nat
  parents : KeySet
  start : Nat
  last : Word
  addressPoint : Nat
  functions : List FunctionEntry
  deriving DecidableEq, Repr, Inhabited

namespace SubVtable

def width (s : SubVtable) : Nat := s.last - s.start + 1

/-- The number of slots in front of the address point. -/
def addressOffset (s : SubVtable) : Nat := s.addressPoint - s.start

def contains (s : SubVtable) (slot : Nat) : Bool := s.start ≤ slot && slot ≤ s.last

theorem contains_iff {s : SubVtable} {slot : Nat} :
    s.contains slot = true ↔ s.start ≤ slot ∧ slot ≤ s.last := by
  simp [contains]

end SubVtable

/-- A class with its sub-vtables and, if it is defined, the elements of its vtable.
The vtable of a class that is not defined is emitted elsewhere. -/
structure ClassRecord where
  name : String
  subVtables : List SubVtable
  elements : List Element
  isDefined : Bool
  deriving DecidableEq, Repr, Inhabited

namespace ClassRecord

def key (r : ClassRecord) (order : Nat) : SubVtableKey := ⟨r.name, order⟩

def subVtable? (r : ClassRecord) (order : Nat) : Option SubVtable := r.subVtables[order]?

end ClassRecord

end VtableCloud
