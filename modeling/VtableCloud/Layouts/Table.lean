import VtableCloud.Layouts.Basic
import VtableCloud.Word

/-!
# Filling the new tables

A table takes its elements from the old vtables. Filler and padding become null,
and a virtual thunk is replaced by a clone made for the table, because its body
adjusts by offsets that the new layout changes.

* `materialize` fills one table and lists the clones it needs;
* `Layouts.materializeAll` fills all of them.
-/

namespace VtableCloud

/-- A virtual thunk to be cloned, and the sub-vtable in which it was found first. -/
structure ThunkClone where
  thunk : String
  clone : String
  layoutClass : String
  key : SubVtableKey
  deriving DecidableEq, Repr, Inhabited

/-- The contents of one new table. The alignment counts bytes. -/
structure Table where
  name : String
  alignment : Nat
  elements : List Element
  thunks : List ThunkClone
  deriving DecidableEq, Repr, Inhabited

/-- The symbol of the clone that a thunk has in the table of a root class. -/
def cloneSymbol (root symbol : String) : String := "_SVT" ++ root ++ symbol

/-- An element as it stands in the table of a root class. -/
def Element.renamed (root : String) : Element → Element
  | .function symbol =>
    .function (if isVirtualThunkSymbol symbol then cloneSymbol root symbol else symbol)
  | e => e

/-- The element at an index of a class. There is none at a negative index. -/
def Hierarchy.element? (h : Hierarchy) (className : String) (index : Int) : Option Element := do
  let record ← h.record? className
  if index < 0 then none else record.elements[index.toNat]?

/-- The old element of a slot, null for filler and padding. Slots before the start of the
sub-vtable are padding, where the start takes part as a signed machine word. -/
def Hierarchy.slotElement (h : Hierarchy) (root : String) : Slot → Except LayoutError Element
  | .dummy => .ok .null
  | .entry key index => do
    let id ← (h.nodeId key).mapError .hierarchy
    if index < signedWord (h.node id).start then
      return .null
    else
      match h.element? key.className index with
      | some e => return e
      | none => .error (.invariantViolation root key (.noElement index))

/-- The clone that a slot calls for, if its old element is a virtual thunk. -/
def thunkClone? (root : String) : Slot × Element → Option ThunkClone
  | (.entry key _, .function symbol) =>
    if isVirtualThunkSymbol symbol then
      some ⟨symbol, cloneSymbol root symbol, root, key⟩
    else
      none
  | _ => none

/-- Add a clone unless one of its name is listed. -/
def addClone (clones : List ThunkClone) (t : ThunkClone) : List ThunkClone :=
  if clones.any (·.clone == t.clone) then clones else clones ++ [t]

/-- Fill the table of a cloud from the vtables of a hierarchy. -/
def materialize (h : Hierarchy) (c : CloudLayout) : Except LayoutError Table := do
  let old ← c.slots.mapM (h.slotElement c.root)
  return {
    name := c.tableName
    alignment := c.alignmentBytes
    elements := old.map (Element.renamed c.root)
    thunks := ((c.slots.zip old).filterMap (thunkClone? c.root)).foldl addClone [] }

/-- Fill the tables of all clouds, in the order of their roots. -/
def Layouts.materializeAll (l : Layouts) : Except LayoutError (List Table) :=
  l.clouds.mapM (materialize l.hierarchy)

end VtableCloud
