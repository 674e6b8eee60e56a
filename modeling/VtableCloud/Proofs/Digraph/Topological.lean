import Mathlib.Data.List.Basic
import VtableCloud.Digraph.Topological

/-!
# Orders with parents first

The rows of the graph list parents. `ParentsFirst` says that an order lists the parents of
a node before the node.

* `parentsFirst_released`: this holds of the order in which nodes are released;
* `ParentsFirst.not_leadsIntoCycle`: going from a node in such an order to its parents never leads
  into a cycle;
* `ParentsFirst.acyclic`: a graph all of whose nodes stand in such an order has no cycle;
* `ParentsFirst.founded`: there, going from nodes to parents comes to an end.
-/

namespace VtableCloud

namespace Digraph

variable {g : Digraph} {order : List Nat}

/-- Following edges from a node leads to one that comes after itself. -/
def LeadsIntoCycle (g : Digraph) (x : Nat) : Prop := ∃ y, g.Reaches x y ∧ g.ReachesStrictly y y

theorem LeadsIntoCycle.lt_size {x : Nat} (h : g.LeadsIntoCycle x) : x < g.size := by
  obtain ⟨y, path, p, edge, -⟩ := h
  cases path with
  | refl => exact lt_size_of_mem_succ edge
  | step first _ => exact lt_size_of_mem_succ first

theorem acyclic_iff : g.Acyclic ↔ ∀ x, ¬ g.LeadsIntoCycle x := by
  constructor
  · rintro acyclic x ⟨y, -, cycle⟩
    exact acyclic y cycle
  · intro none x cycle
    exact none x ⟨x, .refl x, cycle⟩

/-- The parents of each listed node are listed before it. -/
def ParentsFirst (g : Digraph) (order : List Nat) : Prop :=
  ∀ before x after, order = before ++ x :: after → ∀ p ∈ g.succ x, p ∈ before

theorem ParentsFirst.append {x : Nat} (h : g.ParentsFirst order)
    (ready : ∀ p ∈ g.succ x, p ∈ order) : g.ParentsFirst (order ++ [x]) := by
  intro before y after eq p hp
  rcases List.eq_nil_or_concat after with rfl | ⟨init, last, rfl⟩
  · obtain ⟨rfl, rfl⟩ := List.append_inj' eq rfl |>.imp id (List.cons.inj · |>.1)
    exact ready p hp
  · have front : order = before ++ y :: init := by
      rw [List.concat_eq_append, ← List.cons_append, ← List.append_assoc] at eq
      exact (List.append_inj' eq rfl).1
    exact h before y init front p hp

theorem ParentsFirst.mem (h : g.ParentsFirst order) {x p : Nat} (hx : x ∈ order)
    (hp : p ∈ g.succ x) : p ∈ order := by
  obtain ⟨before, after, rfl⟩ := List.append_of_mem hx
  exact List.mem_append_left _ (h before x after rfl p hp)

theorem ParentsFirst.mem_of_reaches (h : g.ParentsFirst order) {x y : Nat} (path : g.Reaches x y)
    (hx : x ∈ order) : y ∈ order := by
  induction path with
  | refl => exact hx
  | step edge _ ih => exact ih (h.mem hx edge)

theorem ParentsFirst.of_append {before after : List Nat} (h : g.ParentsFirst (before ++ after)) :
    g.ParentsFirst before := by
  rintro front x back rfl p hp
  exact h front x (back ++ after) (by simp) p hp

/-- Releasing nodes one after another keeps parents first, if all that waits has its
parents in order already. -/
theorem parentsFirst_from {children : Digraph} :
    ∀ {fuel : Nat} {queue order : List Nat}, g.ParentsFirst order →
      (∀ x ∈ queue, ∀ p ∈ g.succ x, p ∈ order) →
      g.ParentsFirst (parentsFirstFrom g children fuel queue order) := by
  intro fuel
  induction fuel with
  | zero => exact fun h _ => h
  | succ fuel ih =>
    intro queue order h ready
    cases queue with
    | nil => exact h
    | cons x queue =>
      refine ih (h.append (ready x (by simp))) ?_
      intro y hy p hp
      rcases List.mem_append.mp hy with waiting | released
      · exact List.mem_append_left _ (ready y (List.mem_cons_of_mem x waiting) p hp)
      · have all := (List.mem_filter.mp released).2
        simpa using List.all_eq_true.mp all p hp

theorem parentsFirst_released (g : Digraph) : g.ParentsFirst g.released := by
  refine parentsFirst_from (by simp [ParentsFirst]) ?_
  intro x hx p hp
  have none : g.succ x = [] := by simpa using (List.mem_filter.mp hx).2
  simp [none] at hp

/-- An order is given only if it lists all nodes. -/
theorem parentsFirst_ok (h : g.parentsFirst = .ok order) :
    g.ParentsFirst order ∧ ∀ x < g.size, x ∈ order := by
  simp only [parentsFirst] at h
  split at h
  · cases h
  · rename_i none
    obtain rfl := Except.ok.inj h
    refine ⟨parentsFirst_released g, fun x hx => ?_⟩
    simpa using List.find?_eq_none.mp none x (List.mem_range.mpr hx)

theorem ParentsFirst.idxOf_lt (h : g.ParentsFirst order) {x p : Nat} (hx : x ∈ order)
    (hp : p ∈ g.succ x) : order.idxOf p < order.idxOf x := by
  obtain ⟨before, after, rfl, new⟩ := List.eq_append_cons_of_mem hx
  have early : p ∈ before := h before x after rfl p hp
  rw [List.idxOf_append_of_mem early, List.idxOf_append_of_notMem new]
  have := List.idxOf_lt_length_of_mem early
  omega

theorem ParentsFirst.idxOf_le (h : g.ParentsFirst order) {x y : Nat} (path : g.Reaches x y)
    (hx : x ∈ order) : order.idxOf y ≤ order.idxOf x := by
  induction path with
  | refl => exact Nat.le_refl _
  | step edge _ ih => exact Nat.le_trans (ih (h.mem hx edge)) (Nat.le_of_lt (h.idxOf_lt hx edge))

theorem ParentsFirst.not_leadsIntoCycle (h : g.ParentsFirst order) {x : Nat} (hx : x ∈ order) :
    ¬ g.LeadsIntoCycle x := by
  rintro ⟨y, path, p, edge, back⟩
  have listed := h.mem_of_reaches path hx
  have lt := h.idxOf_lt listed edge
  have := h.idxOf_le back (h.mem listed edge)
  omega

theorem ParentsFirst.acyclic (h : g.ParentsFirst order) (all : ∀ x < g.size, x ∈ order) :
    g.Acyclic :=
  acyclic_iff.mpr fun x cycle => h.not_leadsIntoCycle (all x cycle.lt_size) cycle

theorem ParentsFirst.founded (h : g.ParentsFirst order) (all : ∀ x < g.size, x ∈ order) :
    WellFounded fun p x => p ∈ g.succ x := by
  refine Subrelation.wf ?_ (measure order.idxOf).wf
  intro p x edge
  exact h.idxOf_lt (all x (lt_size_of_mem_succ edge)) edge

end Digraph

end VtableCloud
