import VtableCloud.Layout.Basic
import VtableCloud.Range.Run

/-!
# Checking the runs of descendants

The runs given for each member of a cloud have to be disjoint and hold exactly its
descendants. Any runs can be checked, also reversed ones and ones that reach past the
preorder.
-/

namespace VtableCloud

/-- What is wrong with the runs of one member. -/
def runViolation? (h : Hierarchy) (preorder : List NodeId) (id : NodeId) (runs : List Run) :
    Option Violation :=
  let descendants := h.preorder id
  let span := Run.total runs
  if (runs.zip (runs.drop 1)).any fun (a, b) => decide (b.start ≤ a.stop) then
    some .overlappingRuns
  else if span ≠ descendants.length then
    some (.wrongSpan span descendants.length)
  else
    (descendants.find? fun d => !runs.any (·.contains (preorder.idxOf d))).map fun d =>
      .missedDescendant (h.key d)

/-- Check the runs given for the members of a cloud. -/
def CloudLayout.checkRuns (c : CloudLayout) (h : Hierarchy) (runs : NodeId → List Run) :
    Except LayoutError Unit :=
  LayoutError.ofViolation c.root <| c.preorder.findSome? fun id =>
    (runViolation? h c.preorder id (runs id)).map (h.key id, ·)

/-- Check the runs of descendants themselves. -/
def CloudLayout.checkDescendantRuns (c : CloudLayout) (h : Hierarchy) : Except LayoutError Unit :=
  let table := h.preorderRuns c.preorder
  c.checkRuns h table.runs

end VtableCloud
