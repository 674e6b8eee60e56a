import VtableCloud.Layout.Basic

/-!
# Checking that children look like their parents

Code compiled against a parent reaches slots by their distance from the address
point. So along every forward edge between defined sub-vtables the child has to hold
all distances that the parent holds, and each has to be moved equally in both.

* `checkContainment` reports the first edge where this fails.
-/

namespace VtableCloud

/-- The positions of a sub-vtable as distances from its new address point, given the
number of slots before it. -/
def distances (before : Nat) (positions : List Nat) : List Int :=
  let addressPoint : Int := positions.getD before 0
  positions.map fun (p : Nat) => p - addressPoint

/-- The first slot of the parent that the child has moved differently. Both are seen from
their new address points, and the child may have more slots before its own. -/
def movedSlot? (parent : SubVtableKey) (parentBefore childBefore : Nat)
    (parentPositions childPositions : List Nat) : Option Violation :=
  let inParent := distances parentBefore parentPositions
  let inChild := (distances childBefore childPositions).drop (childBefore - parentBefore)
  ((inParent.zip inChild).zipIdx.find? fun ((p, c), _) => p ≠ c).map fun ((p, c), i) =>
    .moved parent ((i : Int) - parentBefore) p c

/-- What is wrong with the child of an edge, given the nodes and placements of its ends. -/
def edgeViolation? (parent child : Node) (parentPlace childPlace : Placement) :
    Option Violation :=
  let parentBefore := parent.addressOffset + parentPlace.prePad
  let childBefore := child.addressOffset + childPlace.prePad
  let parentAfter := parent.last - parent.addressPoint
  let childAfter := child.last - child.addressPoint
  if childBefore < parentBefore ∨ childAfter < parentAfter then
    some (.notContained parent.key parentBefore parentAfter childBefore childAfter)
  else
    movedSlot? parent.key parentBefore childBefore parentPlace.positions childPlace.positions

namespace CloudLayout

/-- The violation at one edge between places of the preorder. An end that is undefined
has no placement, and nothing of it is in the table. -/
def edgeViolation? (c : CloudLayout) (h : Hierarchy) (edge : Nat × Nat) :
    Option (SubVtableKey × Violation) :=
  let parent := h.node (c.preorder.getD edge.1 0)
  let child := h.node (c.preorder.getD edge.2 0)
  match c.placement? parent.key, c.placement? child.key with
  | some parentPlace, some childPlace =>
    (VtableCloud.edgeViolation? parent child parentPlace childPlace).map (child.key, ·)
  | _, _ => none

def checkContainment (c : CloudLayout) (h : Hierarchy) : Except LayoutError Unit :=
  LayoutError.ofViolation c.root ((h.forwardEdges c.preorder).findSome? (c.edgeViolation? h))

end CloudLayout

end VtableCloud
