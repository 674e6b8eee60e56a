import VtableCloud.Digraph.Basic

/-!
# Search for a node

`Digraph.search` follows edges from one node until it meets another.
-/

namespace VtableCloud

namespace Digraph

/-- Take nodes off a worklist, last in first out. A node is marked only when it is taken
off, and all its successors are put on the list, marked or not. -/
def searchFrom (g : Digraph) (goal : Nat) : Nat → List Nat → List Nat → Bool
  | 0, _, _ => false
  | _ + 1, [], _ => false
  | fuel + 1, i :: work, seen =>
    if i = goal then true
    else if i ∈ seen then g.searchFrom goal fuel work seen
    else g.searchFrom goal fuel ((g.succ i).reverse ++ work) (seen ++ [i])

/-- Whether a search from `start` meets `goal`. Each edge puts a node on the worklist at
most once, so the list is empty after one step more than there are edges. -/
def search (g : Digraph) (start goal : Nat) : Bool :=
  g.searchFrom goal (g.edgeCount + 1) [start] []

end Digraph

end VtableCloud
