import Mathlib.Data.Fintype.Pigeonhole
import Mathlib.Data.List.Perm.Subperm
import VtableCloud.Proofs.Digraph.DepthFirst
import VtableCloud.Proofs.Digraph.Topological

/-!
# What is never released

Nodes are released when the last of their parents has been put in order. `Releasing` is what
one such step keeps.

* `Releasing.step`, `releasing_released`: in the end every node whose parents are all in order
  is in order too, and the fuel was enough for this;
* `exists_cycle`: where every node of some kind has an edge to another, a cycle can be reached;
* `mem_released_iff`: so the nodes that are left over are those with a cycle above them;
* `parentsFirst_eq_ok_iff`, `parentsFirst_eq_error_iff`: an order is given just if there is no
  cycle, and otherwise the first node left over.
-/

namespace VtableCloud

namespace Digraph

variable {g : Digraph} {order : List Nat}

theorem length_le_size {xs : List Nat} (once : xs.Nodup) (inside : ∀ x ∈ xs, x < g.size) :
    xs.length ≤ g.size := by
  have among : xs ⊆ List.range g.size := fun x hx => List.mem_range.mpr (inside x hx)
  simpa using (List.subperm_of_subset once among).length_le

theorem sorted_transpose_succ (g : Digraph) (i : Nat) : (g.transpose.succ i).Pairwise (· < ·) := by
  unfold transpose succ
  rw [List.getD_eq_getElem?_getD, List.getElem?_map]
  cases (List.range g.size)[i]? with
  | none => exact .nil
  | some j => exact List.pairwise_lt_range.filter _

theorem nodup_transpose_succ (g : Digraph) (i : Nat) : (g.transpose.succ i).Nodup :=
  (sorted_transpose_succ g i).imp Nat.ne_of_lt

/-- Some nodes are in order and some wait. A node is among them just if its parents are in
order. -/
structure Releasing (g : Digraph) (queue order : List Nat) : Prop where
  once : (order ++ queue).Nodup
  inside : ∀ x ∈ order ++ queue, x < g.size
  ready : ∀ x ∈ order ++ queue, ∀ p ∈ g.succ x, p ∈ order
  complete : ∀ x < g.size, (∀ p ∈ g.succ x, p ∈ order) → x ∈ order ++ queue

theorem releasing_start (g : Digraph) :
    Releasing g ((List.range g.size).filter fun i => g.succ i = []) [] where
  once := List.nodup_range.filter _
  inside x hx := List.mem_range.mp (List.mem_filter.mp hx).1
  ready x hx p hp := by
    have none : g.succ x = [] := by simpa using (List.mem_filter.mp hx).2
    rw [none] at hp
    exact hp
  complete x lt none := by
    have empty : g.succ x = [] := List.eq_nil_iff_forall_not_mem.mpr fun p hp => nomatch none p hp
    exact List.mem_filter.mpr ⟨List.mem_range.mpr lt, by simpa using empty⟩

theorem Releasing.waits {i : Nat} {queue order : List Nat} (inv : Releasing g (i :: queue) order) :
    i ∉ order := by
  intro listed
  exact (List.nodup_append.mp inv.once).2.2 i listed i (by simp) rfl

theorem Releasing.length_le {queue order : List Nat} (inv : Releasing g queue order) :
    order.length + queue.length ≤ g.size := by
  rw [← List.length_append]
  exact length_le_size inv.once inv.inside

/-- Putting the first node that waits in order releases what waited for it alone. -/
theorem Releasing.step {i : Nat} {queue order : List Nat} (inv : Releasing g (i :: queue) order) :
    Releasing g (queue ++ (g.transpose.succ i).filter fun c =>
      (g.succ c).all (· ∈ order ++ [i])) (order ++ [i]) := by
  have regroup (xs : List Nat) : order ++ [i] ++ (queue ++ xs) = (order ++ i :: queue) ++ xs := by
    simp
  have released {c : Nat} : c ∈ (g.transpose.succ i).filter (fun c =>
      (g.succ c).all (· ∈ order ++ [i])) ↔ i ∈ g.succ c ∧ ∀ p ∈ g.succ c, p ∈ order ++ [i] := by
    have here : i < g.size := inv.inside i (by simp)
    rw [List.mem_filter, mem_transpose_succ, List.all_eq_true]
    simp only [here, true_and, decide_eq_true_eq]
  constructor
  · rw [regroup, List.nodup_append]
    refine ⟨inv.once, (nodup_transpose_succ g i).filter _, ?_⟩
    rintro c old _ new rfl
    exact inv.waits (inv.ready c old i (released.mp new).1)
  · rw [regroup]
    intro x hx
    rcases List.mem_append.mp hx with old | new
    · exact inv.inside x old
    · exact lt_size_of_mem_succ (released.mp new).1
  · rw [regroup]
    intro x hx p hp
    rcases List.mem_append.mp hx with old | new
    · exact List.mem_append_left _ (inv.ready x old p hp)
    · exact (released.mp new).2 p hp
  · rw [regroup]
    intro x lt all
    by_cases child : i ∈ g.succ x
    · exact List.mem_append_right _ (released.mpr ⟨child, all⟩)
    · refine List.mem_append_left _ (inv.complete x lt fun p hp => ?_)
      rcases List.mem_append.mp (all p hp) with old | new
      · exact old
      · exact absurd (List.mem_singleton.mp new ▸ hp) child

theorem Releasing.run {fuel : Nat} :
    ∀ {queue order : List Nat}, Releasing g queue order → g.size < order.length + fuel →
      Releasing g [] (parentsFirstFrom g g.transpose fuel queue order) := by
  induction fuel with
  | zero =>
    intro queue order inv enough
    have few := inv.length_le
    omega
  | succ fuel ih =>
    intro queue order inv enough
    cases queue with
    | nil => exact inv
    | cons i queue =>
      apply ih inv.step
      rw [List.length_append, List.length_singleton]
      omega

theorem releasing_released (g : Digraph) : Releasing g [] g.released := by
  apply (releasing_start g).run
  simp

/-- If all nodes of some kind have an edge to another of the kind, then following edges leads
into a cycle. -/
theorem exists_cycle {P : Nat → Prop} (inside : ∀ x, P x → x < g.size)
    (onward : ∀ x, P x → ∃ p ∈ g.succ x, P p) {x : Nat} (hx : P x) :
    ∃ y, g.Reaches x y ∧ g.ReachesStrictly y y := by
  choose! next edge stays using onward
  have kind : ∀ n, P (next^[n] x) := by
    intro n
    induction n with
    | zero => exact hx
    | succ n ih =>
      rw [Function.iterate_succ_apply']
      exact stays _ ih
  have walk : ∀ m n, g.Reaches (next^[m] x) (next^[m + n] x) := by
    intro m n
    induction n with
    | zero => exact .refl _
    | succ n ih =>
      rw [← Nat.add_assoc, Function.iterate_succ_apply']
      exact ih.trans (.edge (edge _ (kind _)))
  have repeats : ∃ m n, m < n ∧ next^[m] x = next^[n] x := by
    obtain ⟨m, n, ne, eq⟩ := Finite.exists_ne_map_eq_of_infinite
      fun n => (⟨next^[n] x, inside _ (kind n)⟩ : Fin g.size)
    have same : next^[m] x = next^[n] x := congrArg Fin.val eq
    rcases Nat.lt_or_gt_of_ne ne with lt | gt
    · exact ⟨m, n, lt, same⟩
    · exact ⟨n, m, gt, same.symm⟩
  obtain ⟨m, n, lt, same⟩ := repeats
  refine ⟨next^[m] x, ?_, next^[m + 1] x, ?_, ?_⟩
  · simpa using walk 0 m
  · rw [Function.iterate_succ_apply']
    exact edge _ (kind m)
  · have rest := walk (m + 1) (n - (m + 1))
    rwa [Nat.add_sub_cancel' lt, ← same] at rest

theorem released_complete {x : Nat} (inside : x < g.size) (ready : ∀ p ∈ g.succ x, p ∈ g.released) :
    x ∈ g.released := by
  simpa using (releasing_released g).complete x inside ready

/-- The first node that is left over is named. -/
theorem parentsFirst_eq_error_iff_not_released {stuck : Nat} : g.parentsFirst = .error stuck ↔
    (stuck < g.size ∧ stuck ∉ g.released) ∧ ∀ x < stuck, x ∈ g.released := by
  have named : g.parentsFirst = .error stuck ↔
      (List.range g.size).find? (· ∉ g.released) = some stuck := by
    simp only [parentsFirst]
    cases (List.range g.size).find? (· ∉ g.released) <;> simp
  rw [named, List.find?_range_eq_some]
  simp [and_assoc, and_left_comm]

section Closed

variable (closed : ∀ x, ∀ p ∈ g.succ x, p < g.size)
include closed

/-- The nodes put in order are those with no cycle above them. -/
theorem mem_released_iff {x : Nat} : x ∈ g.released ↔ x < g.size ∧ ¬ g.LeadsIntoCycle x := by
  constructor
  · intro listed
    have inside := (releasing_released g).inside x (by simpa using listed)
    exact ⟨inside, (parentsFirst_released g).not_leadsIntoCycle listed⟩
  · rintro ⟨inside, safe⟩
    by_contra out
    apply safe
    apply exists_cycle (P := fun x => x < g.size ∧ x ∉ g.released) (fun _ left => left.1) ?_
      ⟨inside, out⟩
    -- A node with all parents in order would be in order, so one of them is left over too.
    rintro y ⟨inside, out⟩
    by_contra none
    apply out
    apply released_complete inside
    intro p hp
    by_contra waiting
    exact none ⟨p, hp, closed y p hp, waiting⟩

theorem not_mem_released_iff {x : Nat} : x < g.size ∧ x ∉ g.released ↔ g.LeadsIntoCycle x := by
  rw [mem_released_iff closed]
  constructor
  · rintro ⟨inside, out⟩
    by_contra safe
    exact out ⟨inside, safe⟩
  · intro cycle
    exact ⟨cycle.lt_size, fun listed => listed.2 cycle⟩

theorem released_perm (acyclic : g.Acyclic) : g.released.Perm (List.range g.size) := by
  have once : g.released.Nodup := by simpa using (releasing_released g).once
  rw [List.perm_ext_iff_of_nodup once List.nodup_range]
  intro x
  simp [mem_released_iff closed, acyclic_iff.mp acyclic x]

/-- An order is given just if there is no cycle. -/
theorem parentsFirst_eq_ok_iff : g.parentsFirst = .ok order ↔ g.Acyclic ∧ order = g.released := by
  constructor
  · intro ok
    obtain ⟨first, all⟩ := parentsFirst_ok ok
    refine ⟨first.acyclic all, ?_⟩
    simp only [parentsFirst] at ok
    split at ok
    · cases ok
    · exact (Except.ok.inj ok).symm
  · rintro ⟨acyclic, rfl⟩
    have all : (List.range g.size).find? (· ∉ g.released) = none := by
      rw [List.find?_range_eq_none]
      intro x inside
      simpa using (mem_released_iff closed).mpr ⟨inside, acyclic_iff.mp acyclic x⟩
    simp only [parentsFirst, all]

/-- Otherwise the least node with a cycle above it is named. -/
theorem parentsFirst_eq_error_iff {stuck : Nat} : g.parentsFirst = .error stuck ↔
    g.LeadsIntoCycle stuck ∧ ∀ x, g.LeadsIntoCycle x → stuck ≤ x := by
  rw [parentsFirst_eq_error_iff_not_released, not_mem_released_iff closed]
  apply and_congr_right
  intro cycle
  constructor
  · intro before x other
    by_contra earlier
    exact ((not_mem_released_iff closed).mpr other).2 (before x (by omega))
  · intro least x earlier
    by_contra out
    have inside := cycle.lt_size
    have := least x ((not_mem_released_iff closed).mp ⟨by omega, out⟩)
    omega

end Closed

end Digraph

end VtableCloud
