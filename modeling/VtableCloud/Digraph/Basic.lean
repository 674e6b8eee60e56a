/-!
# Directed graphs on numbered nodes

A graph is the list of its rows: row `i` lists the nodes that edges from node `i`
lead to. A number beyond the rows has no edges.

* `Reaches`: following any number of edges;
* `Digraph.transpose`: the graph with all edges turned round;
* `Digraph.mem_transpose_succ`: an edge of the one is an edge of the other.
-/

namespace VtableCloud

structure Digraph where
  rows : List (List Nat)
  deriving DecidableEq, Repr

namespace Digraph

def size (g : Digraph) : Nat := g.rows.length

def succ (g : Digraph) (i : Nat) : List Nat := g.rows.getD i []

def edgeCount (g : Digraph) : Nat := g.rows.flatten.length

/-- Node `b` is `a` itself or comes after it along edges. -/
inductive Reaches (g : Digraph) : Nat → Nat → Prop
  | refl (a : Nat) : Reaches g a a
  | step {a b c : Nat} : b ∈ g.succ a → Reaches g b c → Reaches g a c

/-- Following at least one edge. -/
def ReachesStrictly (g : Digraph) (a c : Nat) : Prop := ∃ b ∈ g.succ a, g.Reaches b c

/-- No node comes after itself. -/
def Acyclic (g : Digraph) : Prop := ∀ a, ¬ g.ReachesStrictly a a

theorem succ_of_size_le {g : Digraph} {i : Nat} (h : g.size ≤ i) : g.succ i = [] := by
  unfold size at h
  simp [succ, List.getElem?_eq_none h]

theorem lt_size_of_mem_succ {g : Digraph} {i j : Nat} (h : j ∈ g.succ i) : i < g.size := by
  rcases Nat.lt_or_ge i g.size with lt | ge
  · exact lt
  · simp [succ_of_size_le ge] at h

/-- Row `i` of the turned graph lists, in increasing order, the nodes with an edge to `i`. -/
def transpose (g : Digraph) : Digraph :=
  ⟨(List.range g.size).map fun i => (List.range g.size).filter fun j => decide (i ∈ g.succ j)⟩

theorem size_transpose (g : Digraph) : g.transpose.size = g.size := by
  simp [transpose, size]

theorem mem_transpose_succ {g : Digraph} {i j : Nat} :
    j ∈ g.transpose.succ i ↔ i < g.size ∧ i ∈ g.succ j := by
  rcases Nat.lt_or_ge i g.size with lt | ge
  · have row : g.transpose.succ i =
        (List.range g.size).filter fun j => decide (i ∈ g.succ j) := by
      simp [succ, transpose, lt]
    rw [row]
    simp only [List.mem_filter, List.mem_range, decide_eq_true_eq, lt, true_and]
    exact ⟨fun h => h.2, fun h => ⟨lt_size_of_mem_succ h, h⟩⟩
  · have none : g.transpose.succ i = [] := succ_of_size_le (by rw [size_transpose]; exact ge)
    simp [none]
    omega

end Digraph

end VtableCloud
