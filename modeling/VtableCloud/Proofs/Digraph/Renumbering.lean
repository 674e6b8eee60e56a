import Mathlib.Data.List.Basic
import VtableCloud.Proofs.Digraph.DepthFirst

/-!
# Renumbered graphs

What a root reaches in one graph may stand in a larger graph under other numbers.

* `Digraph.Renumbers`: the part of a graph that a root reaches, with other numbers in another;
* `Renumbers.reaches`, `Renumbers.exists_of_reaches`: the same nodes are reached there;
* `Renumbers.preorder_map`: and they are listed in the same order.
-/

namespace VtableCloud

namespace Digraph

/-- All that a root reaches in a graph has the same edges in another graph, where it is numbered
otherwise. -/
structure Renumbers (f : Nat → Nat) (g g' : Digraph) (root : Nat) : Prop where
  injective : Function.Injective f
  succ : ∀ a, g.Reaches root a → g'.succ (f a) = (g.succ a).map f

namespace Renumbers

variable {f : Nat → Nat} {g g' : Digraph} {root a : Nat}

theorem below (r : Renumbers f g g' root) (path : g.Reaches root a) : Renumbers f g g' a :=
  ⟨r.injective, fun b rest => r.succ b (path.trans rest)⟩

theorem reaches (r : Renumbers f g g' root) (path : g.Reaches root a) :
    g'.Reaches (f root) (f a) := by
  induction path with
  | refl => exact .refl _
  | @step root b a edge rest ih =>
    have here : f b ∈ g'.succ (f root) := by
      rw [r.succ root (.refl root)]
      exact List.mem_map_of_mem edge
    exact .step here (ih (r.below (.edge edge)))

/-- What is reached there has a number here. -/
theorem exists_of_reaches (r : Renumbers f g g' root) {b : Nat} (path : g'.Reaches (f root) b) :
    ∃ a, g.Reaches root a ∧ f a = b := by
  generalize start : f root = x at path
  induction path generalizing root with
  | refl => exact ⟨root, .refl root, start⟩
  | step edge _ ih =>
    subst start
    rw [r.succ root (.refl root)] at edge
    obtain ⟨c, down, rfl⟩ := List.mem_map.mp edge
    obtain ⟨a, path, eq⟩ := ih (r.below (.edge down)) rfl
    exact ⟨a, .step down path, eq⟩

/-- Two traversals with enough steps left, of what is numbered otherwise, list the same. -/
theorem preorderFrom_map (r : Renumbers f g g' root) : ∀ {fuel fuel' : Nat}
    {stack visited : List Nat}, (∀ x ∈ stack, g.Reaches root x) →
    stack.length + g.openEdges visited ≤ fuel →
    stack.length + g'.openEdges (visited.map f) ≤ fuel' →
    g'.preorderFrom fuel' (stack.map f) (visited.map f) =
      (g.preorderFrom fuel stack visited).map f := by
  intro fuel
  induction fuel with
  | zero =>
    intro fuel' stack visited _ enough _
    obtain rfl : stack = [] := List.length_eq_zero_iff.mp (by omega)
    cases fuel' <;> rfl
  | succ fuel ih =>
    intro fuel' stack visited reached enough enough'
    cases stack with
    | nil => cases fuel' <;> rfl
    | cons x stack =>
      rw [List.length_cons] at enough enough'
      obtain ⟨fuel', rfl⟩ : ∃ n, fuel' = n + 1 := ⟨fuel' - 1, by omega⟩
      have rest : ∀ y ∈ stack, g.Reaches root y := fun y hy => reached y (by simp [hy])
      have top : g.Reaches root x := reached x (by simp)
      have seen_iff {y : Nat} {ys : List Nat} : f y ∈ ys.map f ↔ y ∈ ys :=
        List.mem_map_of_injective r.injective
      rw [List.map_cons, preorderFrom, preorderFrom]
      by_cases seen : x ∈ visited
      · rw [if_pos seen, if_pos (seen_iff.mpr seen)]
        exact ih rest (by omega) (by omega)
      · have unseen : f x ∉ visited.map f := fun there => seen (seen_iff.mp there)
        have grown : visited.map f ++ [f x] = (visited ++ [x]).map f := by simp
        have fresh : (g'.succ (f x)).filter (· ∉ (visited ++ [x]).map f) =
            ((g.succ x).filter (· ∉ visited ++ [x])).map f := by
          rw [r.succ x top, List.filter_map]
          refine congrArg _ (List.filter_congr fun y _ => ?_)
          simp only [Function.comp_apply, seen_iff]
        have edges := openEdges_visit (g := g) seen
        have edges' := openEdges_visit (g := g') unseen
        have filtered := List.length_filter_le (fun c => decide (c ∉ visited ++ [x])) (g.succ x)
        have length := congrArg List.length (r.succ x top)
        rw [List.length_map] at length
        rw [grown] at edges'
        simp only [if_neg seen, if_neg unseen, grown]
        rw [fresh, ← List.map_append]
        refine ih ?_ ?_ ?_
        · intro y hy
          rcases List.mem_append.mp hy with hy | hy
          · exact top.trans (.edge (List.mem_filter.mp hy).1)
          · exact rest y hy
        · rw [List.length_append]
          omega
        · rw [List.length_append]
          omega

/-- What a node reaches is listed in the same order. -/
theorem preorder_map (r : Renumbers f g g' root) (path : g.Reaches root a) :
    g'.preorder (f a) = (g.preorder a).map f := by
  have start : ∀ x ∈ [a], g.Reaches a x := by simp [Reaches.refl]
  have enough : [a].length + g.openEdges [] ≤ g.edgeCount + 1 := by
    simp [openEdges_nil, Nat.add_comm]
  have enough' : [a].length + g'.openEdges [] ≤ g'.edgeCount + 1 := by
    simp [openEdges_nil, Nat.add_comm]
  exact (r.below path).preorderFrom_map start enough enough'

end Renumbers

end Digraph

end VtableCloud
