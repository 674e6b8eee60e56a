import VtableCloud.Hierarchy.Basic

/-!
# Runs of descendants in a preorder

The descendants of a cloud member occupy a few runs of the cloud's preorder. The runs of a
member are its own place together with the runs of its children.

* `coalesce` puts runs in ascending order and joins those that touch;
* `Hierarchy.preorderRuns` collects the runs of all members of a cloud, children first;
* `Hierarchy.descendantRuns` are those of one member.
-/

namespace VtableCloud

/-- The places from `start` up to but not including `stop`. -/
structure Run where
  start : Nat
  stop : Nat
  deriving DecidableEq, Repr, Inhabited

namespace Run

def length (r : Run) : Nat := r.stop - r.start

/-- The number of places in some runs together. -/
def total : List Run → Nat
  | [] => 0
  | r :: rest => r.length + total rest

def contains (r : Run) (i : Nat) : Bool := r.start ≤ i && i < r.stop

/-- Earlier starts come first, and earlier stops among equal starts. -/
def le (a b : Run) : Bool := a.start < b.start || (a.start == b.start && a.stop ≤ b.stop)

end Run

/-- Put a run where it belongs among runs in ascending order. -/
def insertRun (r : Run) : List Run → List Run
  | [] => [r]
  | s :: rest => if r.le s then r :: s :: rest else s :: insertRun r rest

/-- Join a run with those after it, in the order of their starts, as far as they touch. -/
def joinRuns (last : Run) : List Run → List Run
  | [] => [last]
  | r :: rest =>
    if r.start ≤ last.stop then joinRuns ⟨last.start, max last.stop r.stop⟩ rest
    else last :: joinRuns r rest

/-- Runs as others in ascending order that hold the same places and leave gaps. -/
def coalesce (runs : List Run) : List Run :=
  match runs.foldr insertRun [] with
  | [] => []
  | r :: rest => joinRuns r rest

/-- The runs that have been collected, by node. -/
abbrev RunTable := List (NodeId × List Run)

/-- The runs of a node. There are none if they have not been collected. -/
def RunTable.runs (table : RunTable) (id : NodeId) : List Run := (table.lookup id).getD []

namespace Hierarchy

/-- Collect the runs of a node, after those of its children, unless they are known. -/
def collectRuns (h : Hierarchy) (preorder : List NodeId) : Nat → RunTable → NodeId → RunTable
  | 0, table, _ => table
  | depth + 1, table, id =>
    if (table.lookup id).isSome then table
    else
      let table := (h.children id).foldl (collectRuns h preorder depth) table
      let own := preorder.idxOf id
      (id, coalesce (⟨own, own + 1⟩ :: (h.children id).flatMap table.runs)) :: table

/-- The runs of each member of a cloud, given its preorder. No member is deeper in the
cloud than there are nodes. -/
def preorderRuns (h : Hierarchy) (preorder : List NodeId) : RunTable :=
  match preorder with
  | [] => []
  | root :: _ => h.collectRuns preorder (h.size + 1) [] root

/-- The runs of a preorder that hold a node and its descendants. -/
def descendantRuns (h : Hierarchy) (preorder : List NodeId) (id : NodeId) : List Run :=
  (h.preorderRuns preorder).runs id

end Hierarchy

end VtableCloud
