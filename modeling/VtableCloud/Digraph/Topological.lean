import VtableCloud.Digraph.Basic

/-!
# Topological order

The rows of the graph list the parents of each node. A node is released when the
last of its parents has been put in order, and waits in a queue until its turn.

* `Digraph.parentsFirst` gives the order, or the least node that never gets released.
-/

namespace VtableCloud

namespace Digraph

/-- Put the queued nodes in order and release their children. -/
def parentsFirstFrom (parents children : Digraph) : Nat → List Nat → List Nat → List Nat
  | 0, _, order => order
  | _ + 1, [], order => order
  | fuel + 1, i :: queue, order =>
    let order := order ++ [i]
    let released := (children.succ i).filter fun c => (parents.succ c).all (· ∈ order)
    parentsFirstFrom parents children fuel (queue ++ released) order

/-- The nodes that have no cycle above them, parents before children. The nodes
without parents start the queue. -/
def released (g : Digraph) : List Nat :=
  parentsFirstFrom g g.transpose (g.size + 1) ((List.range g.size).filter fun i => g.succ i = []) []

/-- All nodes, parents before children, or else the least node left over. -/
def parentsFirst (g : Digraph) : Except Nat (List Nat) :=
  let order := g.released
  match (List.range g.size).find? (· ∉ order) with
  | some stuck => .error stuck
  | none => .ok order

end Digraph

end VtableCloud
