import VtableCloud.Digraph.Basic

/-!
# Breadth-first order

`Digraph.levelOrder` lists each node that a root reaches once, nearer nodes first.
-/

namespace VtableCloud

namespace Digraph

/-- Take nodes off the front of a queue. A node is marked as soon as it is queued, so
that it is queued only once. -/
def levelOrderFrom (g : Digraph) : Nat → List Nat → List Nat → List Nat
  | 0, _, _ => []
  | _ + 1, [], _ => []
  | fuel + 1, i :: queue, marked =>
    let fresh := (g.succ i).filter (· ∉ marked)
    i :: g.levelOrderFrom fuel (queue ++ fresh) (marked ++ fresh)

/-- The nodes reached from a root, level by level. Each node is taken off once. -/
def levelOrder (g : Digraph) (root : Nat) : List Nat :=
  g.levelOrderFrom (g.size + 1) [root] [root]

/-- Node `b` is reached from `a` along `n` edges. -/
inductive Walk (g : Digraph) : Nat → Nat → Nat → Prop
  | refl (a : Nat) : Walk g 0 a a
  | step {n a b c : Nat} : b ∈ g.succ a → Walk g n b c → Walk g (n + 1) a c

/-- The least number of edges from `a` to `b` is `n`. -/
def Distance (g : Digraph) (n a b : Nat) : Prop := g.Walk n a b ∧ ∀ m, g.Walk m a b → n ≤ m

end Digraph

end VtableCloud
