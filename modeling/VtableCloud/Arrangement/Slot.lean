import VtableCloud.Key

/-!
# Slots of a new table

A slot is filler or stands for a slot of an old sub-vtable.
-/

namespace VtableCloud

inductive Slot where
  /-- Alignment filler. -/
  | dummy
  /-- Slot `index` of the vtable of the key's class. Below the start of the sub-vtable
  it is padding and holds no value. -/
  | entry (key : SubVtableKey) (index : Int)
  deriving DecidableEq, Repr, Inhabited

def Slot.text : Slot → String
  | dummy => "<dummy>"
  | entry key index => s!"{key.text}[{index}]"

/-- The slots of one table and the alignment of its address points, in slots. -/
structure Arrangement where
  slots : List Slot
  alignment : Nat
  deriving DecidableEq, Repr, Inhabited

end VtableCloud
