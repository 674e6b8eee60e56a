import VtableCloud.Digraph.Basic

/-!
# Depth-first preorder

Each node that a root reaches is listed once, at its first visit, and its unvisited
successors follow in row order.

* `Digraph.preorder` keeps the nodes still to be visited on a stack;
* `Digraph.visit` says the same by recursion on the nodes.
-/

namespace VtableCloud

namespace Digraph

/-- Visit what is on the stack. A node may wait there several times and is passed over
once it has been visited. -/
def preorderFrom (g : Digraph) : Nat → List Nat → List Nat → List Nat
  | 0, _, visited => visited
  | _ + 1, [], visited => visited
  | fuel + 1, i :: stack, visited =>
    if i ∈ visited then
      g.preorderFrom fuel stack visited
    else
      let visited := visited ++ [i]
      g.preorderFrom fuel ((g.succ i).filter (· ∉ visited) ++ stack) visited

/-- The nodes reached from a root, in preorder. Each edge puts a node on the stack at
most once, so the stack is empty after one step more than there are edges. -/
def preorder (g : Digraph) (root : Nat) : List Nat :=
  g.preorderFrom (g.edgeCount + 1) [root] []

/-- Visit a node unless it has been visited, then its successors in row order. The
depth bounds the nesting of visits. -/
def visit (g : Digraph) : Nat → List Nat → Nat → List Nat
  | 0, visited, _ => visited
  | depth + 1, visited, i =>
    if i ∈ visited then visited
    else (g.succ i).foldl (g.visit depth) (visited ++ [i])

end Digraph

end VtableCloud
