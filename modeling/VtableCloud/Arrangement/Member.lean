import VtableCloud.Arrangement.Slot
import VtableCloud.Hierarchy.Basic
import VtableCloud.Word

/-!
# Padding in front of sub-vtables

A child's slots before its address point have to cover those of its parent. Where
they fall short, the child is padded in front.

* `forwardEdges`: the edges whose child comes later in a preorder;
* `prePadding`: for each place of a preorder the number of padding slots;
* `Member`: a place of a preorder with its node and its padding.
-/

namespace VtableCloud

namespace Hierarchy

/-- The edges from the node at a place of a preorder to later places. -/
def forwardEdgesFrom (h : Hierarchy) (preorder : List NodeId) (i : Nat) (id : NodeId) :
    List (Nat × Nat) :=
  (h.children id).filterMap fun c =>
    match preorder.idxOf? c with
    | some j => if i < j then some (i, j) else none
    | none => none

/-- The edges whose child comes later, as pairs of places, grouped by parent in
preorder. A child already reached through another parent comes earlier. -/
def forwardEdges (h : Hierarchy) (preorder : List NodeId) : List (Nat × Nat) :=
  preorder.zipIdx.flatMap fun (id, i) => h.forwardEdgesFrom preorder i id

/-- Push the padded depth of a parent down one edge. -/
def padEdge (h : Hierarchy) (preorder : List NodeId) (pads : List Nat) (edge : Nat × Nat) :
    List Nat :=
  let (i, j) := edge
  let depth (k : Nat) := (h.node (preorder.getD k 0)).addressOffset
  pads.set j (max (pads.getD j 0) (depth i + pads.getD i 0 - depth j))

/-- The padding of each place of a preorder. Edges come grouped by parent in preorder,
so the padding of a parent is final before it is pushed down. -/
def prePadding (h : Hierarchy) (preorder : List NodeId) : List Nat :=
  (h.forwardEdges preorder).foldl (h.padEdge preorder) (List.replicate preorder.length 0)

end Hierarchy

/-- A sub-vtable in a cloud, with the number of padding slots in front of it. The slots of a
defined one are elements in memory, so its last slot is a signed word as well. Padding can
be as deep as an undefined ancestor, whose slots are not in memory. -/
structure Member where
  id : NodeId
  node : Node
  pad : Nat
  deriving DecidableEq, Repr, Inhabited

namespace Member

def key (m : Member) : SubVtableKey := m.node.key

/-- The index of the first padding slot, or of the first slot if there is no padding. It is a
signed word, and far padding wraps around. -/
def first (m : Member) : Int := signedWord ((m.node.start : Int) - m.pad)

/-- The number of slots from the first to the last. -/
def extent (m : Member) : Nat := ((m.node.last : Int) + 1 - m.first).toNat

/-- The number of slots that the node and its padding call for, an unsigned word. -/
def size (m : Member) : Nat := unsignedWord (m.node.width + m.pad)

/-- The number of slots before the address point, padding included. -/
def before (m : Member) : Nat := m.node.addressOffset + m.pad

/-- The number of slots after the address point. -/
def after (m : Member) : Nat := m.node.last - m.node.addressPoint

/-- The slot at an offset from the first one. -/
def entry (m : Member) (offset : Nat) : Slot := .entry m.key (m.first + offset)

/-- The slots of a member in the order of its vtable, padding first. -/
def entries (m : Member) : List Slot := (List.range m.extent).map m.entry

end Member

/-- The members of a cloud, given its preorder and their padding. -/
def Hierarchy.members (h : Hierarchy) (preorder : List NodeId) (pads : List Nat) : List Member :=
  (preorder.zip pads).map fun (id, pad) => ⟨id, h.node id, pad⟩

end VtableCloud
