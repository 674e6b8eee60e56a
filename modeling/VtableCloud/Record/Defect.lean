import VtableCloud.Record.Basic

/-!
# Defects of a class record

A record is well formed when its sub-vtables are numbered in order, occupy disjoint
ascending ranges that hold their address points, have parents where they need
them, list functions inside their range, and, if the class is defined, have an
element for every slot.

* `ClassRecord.defect?` finds the first defect;
* `ClassRecord.WellFormed` says what a record without one looks like.
-/

namespace VtableCloud

inductive RecordDefect where
  | noPrimary
  | orderMismatch (position order : Nat)
  | invertedRange (order start last : Nat)
  | addressPointOutOfRange (order start last addressPoint : Nat)
  | overlap (order start previousLast : Nat)
  | missingParents (order : Nat)
  | functionOutOfRange (order : Nat) (name : String) (offset : Nat)
  | shortElements (length last : Nat)
  deriving DecidableEq, Repr

namespace RecordDefect

def message : RecordDefect → String
  | noPrimary => "class has no sub-vtables"
  | orderMismatch position order => s!"sub-vtable at position {position} has order {order}"
  | invertedRange order start last =>
    s!"sub-vtable {order} ends at {last} before it starts at {start}"
  | addressPointOutOfRange order start last addressPoint =>
    s!"address point {addressPoint} of sub-vtable {order} is outside [{start}, {last}]"
  | overlap order start previousLast =>
    s!"sub-vtable {order} starts at {start}, inside the previous one ending at {previousLast}"
  | missingParents order => s!"secondary sub-vtable {order} has no parent"
  | functionOutOfRange order name offset =>
    s!"function `{name}` at offset {offset} lies outside sub-vtable {order}"
  | shortElements length last =>
    s!"vtable has {length} elements but sub-vtables reach slot {last}"

end RecordDefect

/-- The first defect of the sub-vtable at a position, given where the one before it
ends. -/
def SubVtable.defect? (position : Nat) (previousLast : Option Nat) (s : SubVtable) :
    Option RecordDefect :=
  if s.order ≠ position then
    some (.orderMismatch position s.order)
  else if s.last < s.start then
    some (.invertedRange s.order s.start s.last)
  else if s.contains s.addressPoint = false then
    some (.addressPointOutOfRange s.order s.start s.last s.addressPoint)
  else match previousLast.filter (s.start ≤ ·) with
    | some previous => some (.overlap s.order s.start previous)
    | none =>
      if 0 < s.order ∧ s.parents.keys = [] then
        some (.missingParents s.order)
      else
        (s.functions.find? fun f => s.width ≤ f.offset).map fun f =>
          .functionOutOfRange s.order f.name f.offset

/-- The first defect among sub-vtables that stand from a position on. -/
def firstDefect? (position : Nat) (previousLast : Option Nat) :
    List SubVtable → Option RecordDefect
  | [] => none
  | s :: rest =>
    match s.defect? position previousLast with
    | some defect => some defect
    | none => firstDefect? (position + 1) (some s.last) rest

namespace ClassRecord

/-- The last slot that a sub-vtable of the class reaches. -/
def lastSlot (r : ClassRecord) : Nat := (r.subVtables.map (·.last.val)).foldl max 0

/-- The first defect of a record: sub-vtables in order, then the elements. -/
def defect? (r : ClassRecord) : Option RecordDefect :=
  if r.subVtables = [] then
    some .noPrimary
  else match firstDefect? 0 none r.subVtables with
    | some defect => some defect
    | none =>
      if r.isDefined ∧ r.elements.length ≤ r.lastSlot then
        some (.shortElements r.elements.length r.lastSlot)
      else
        none

/-- What a record without a defect looks like. -/
structure WellFormed (r : ClassRecord) : Prop where
  inhabited : r.subVtables ≠ []
  numbered : ∀ (i : Nat) (s : SubVtable), r.subVtables[i]? = some s → s.order = i
  pointed : ∀ s ∈ r.subVtables, s.start ≤ s.addressPoint ∧ s.addressPoint ≤ s.last
  disjoint : r.subVtables.Pairwise fun a b => (a.last : Nat) < b.start
  rooted : ∀ s ∈ r.subVtables, 0 < s.order → s.parents.keys ≠ []
  functions : ∀ s ∈ r.subVtables, ∀ f ∈ s.functions, f.offset < s.width
  elements : r.isDefined = true → ∀ s ∈ r.subVtables, s.last < r.elements.length

end ClassRecord

end VtableCloud
