import VtableCloud.Hierarchy.Query
import VtableCloud.Layouts.Basic

/-!
# From old slots to new ones

* `Layouts.translate`: an index into an old sub-vtable, counted from its address
  point or from its start;
* `Layouts.translateBytes`: a distance in bytes from the address point;
* `Layouts.translateFunction`: the slot of a virtual function.
-/

namespace VtableCloud

namespace Layouts

/-- The node that stands for a key: its own, or that of its first defined descendant. -/
def representative (l : Layouts) (key : SubVtableKey) : Except LayoutError NodeId :=
  (do l.hierarchy.representative (← l.hierarchy.nodeId key)).mapError .hierarchy

/-- The layout that hosts a defined node and the new positions of its slots. -/
def newIndices (l : Layouts) (id : NodeId) : Except LayoutError (List Nat) := do
  let layout ← l.cloudOf id
  match layout.placement? (l.hierarchy.key id) with
  | some p => return p.newIndices
  | none => .error (.invariantViolation layout.root (l.hierarchy.key id) .unplaced)

/-- The new place of a slot of a sub-vtable. A relative offset counts from the address
point and so does the result; otherwise the offset counts from the start and the result
is a position in the table. A sub-vtable that is not defined is translated like its first
defined descendant. -/
def translate (l : Layouts) (key : SubVtableKey) (offset : Int) (relative : Bool) :
    Except LayoutError Int := do
  let id ← l.representative key
  let indices ← l.newIndices id
  let addressOffset := (l.hierarchy.node id).addressOffset
  let index := if relative then addressOffset + offset else offset
  if index < 0 ∨ (indices.length : Int) ≤ index then
    .error (.indexOutOfRange key offset indices.length)
  else
    let position : Int := indices.getD index.toNat 0
    return if relative then position - indices.getD addressOffset 0 else position

/-- The new distance in bytes of a slot at a distance in bytes. The word width takes part
as a signed machine word. -/
def translateBytes (l : Layouts) (key : SubVtableKey) (bytes : Int) : Except LayoutError Int := do
  let word := signedWord l.options.wordWidth
  if bytes.tmod word ≠ 0 then
    .error (.misaligned key bytes l.options.wordWidth)
  else
    return (← l.translate key (bytes.tdiv word) true) * word

/-- The new slot of a virtual function of a class, counted from the new address point of
the sub-vtable that lists it. -/
def translateFunction (l : Layouts) (className name : String) : Except LayoutError Int :=
  match l.hierarchy.functionSlot? className name with
  | some (key, offset) => l.translate key offset true
  | none => .error (.unknownFunction className name)

end Layouts

end VtableCloud
