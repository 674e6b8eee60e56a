import Mathlib.Data.List.GetD
import VtableCloud.Proofs.Digraph.Release
import VtableCloud.Proofs.Lists

/-!
# Releasing nodes by counters

A counter for each node says how many of its parents are still to come. Putting a node in order
takes one off the counters of its children, and a child whose counter comes to zero is released.

* `Counting`: what the counters stand for;
* `foldlM_discount`: what is taken off them for one node;
* `Counting.step`: putting a node in order finds no counter of a child at zero, and releases the
  children whose parents are all in order;
* `countedParentsFirst_eq`: so the loop over counters comes to its end, with the same result.
-/

namespace VtableCloud

namespace Digraph

/-- Take one off the counter of a child, which waits from then on if that was the last. There is
no result if the counter stands at zero already. -/
def discount (state : List Nat × List Nat) (c : Nat) : Option (List Nat × List Nat) :=
  match state.1.getD c 0 with
  | 0 => none
  | left + 1 => some (state.1.set c left, if left = 0 then state.2 ++ [c] else state.2)

/-- Put the nodes that wait in order and take them off the counters of their children. There is
no result if nodes still wait at the end. -/
def countedFrom (children : Digraph) :
    Nat → List Nat × List Nat → List Nat → Option (List Nat × List Nat)
  | 0, _, _ => none
  | _ + 1, (counters, []), order => some (counters, order)
  | fuel + 1, (counters, i :: queue), order => do
    countedFrom children fuel (← (children.succ i).foldlM discount (counters, queue)) (order ++ [i])

/-- All nodes, parents before children, or else the least node whose counter is not at zero in
the end. -/
def countedParentsFirst (parents children : Digraph) : Option (Except Nat (List Nat)) := do
  let counters := parents.rows.map (·.length)
  let queue := (List.range parents.size).filter fun i => counters.getD i 0 = 0
  let (counters, order) ← countedFrom children (parents.size + 1) (counters, queue) []
  return match counters.findIdx? (0 < ·) with
    | some stuck => .error stuck
    | none => .ok order

variable {g : Digraph} {i x : Nat} {order counters children : List Nat}

/-! ## What the counters stand for -/

/-- The number of parents of a node that are not in order. -/
def toCome (g : Digraph) (order : List Nat) (x : Nat) : Nat := (g.succ x).countP (· ∉ order)

theorem toCome_eq_zero_iff : g.toCome order x = 0 ↔ ∀ p ∈ g.succ x, p ∈ order := by
  simp [toCome, List.countP_eq_zero]

/-- A node that is put in order is one less to come for its children. -/
theorem toCome_snoc (once : (g.succ x).Nodup) (waits : i ∉ order) :
    g.toCome order x = g.toCome (order ++ [i]) x + if i ∈ g.succ x then 1 else 0 := by
  unfold toCome
  rw [← List.Nodup.count once]
  induction g.succ x with
  | nil => rfl
  | cons p row ih =>
    rw [List.countP_cons, List.countP_cons, List.count_cons, ih]
    by_cases same : p = i
    · simp [same, waits]
      omega
    · simp [same]
      omega

/-- There is a counter for each node, and it says how many of its parents are to come. -/
structure Counting (g : Digraph) (order counters : List Nat) : Prop where
  length : counters.length = g.size
  left : ∀ x, counters.getD x 0 = g.toCome order x

theorem counting_start (g : Digraph) : Counting g [] (g.rows.map (·.length)) where
  length := List.length_map _
  left x := by
    unfold toCome succ
    rw [List.getD_eq_getElem?_getD, List.getD_eq_getElem?_getD, List.getElem?_map]
    cases g.rows[x]? <;> simp

/-! ## One node -/

theorem lt_length_of_getD_pos {c : Nat} (positive : 0 < counters.getD c 0) :
    c < counters.length := by
  by_contra beyond
  rw [List.getD_eq_default _ _ (Nat.le_of_not_lt beyond)] at positive
  exact Nat.lt_irrefl 0 positive

/-- A counter above zero goes down by one, and the child waits if that was the last. -/
theorem discount_spec {c : Nat} (positive : 0 < counters.getD c 0) (queue : List Nat) :
    ∃ next, discount (counters, queue) c =
        some (next, if next.getD c 0 = 0 then queue ++ [c] else queue) ∧
      next.length = counters.length ∧
      ∀ x, counters.getD x 0 = next.getD x 0 + if x = c then 1 else 0 := by
  have inside := lt_length_of_getD_pos positive
  obtain ⟨left, own⟩ := Nat.exists_eq_add_of_le' positive
  have value (x : Nat) :
      (counters.set c left).getD x 0 = if x = c then left else counters.getD x 0 := by
    rw [getD_set]
    simp only [inside, and_true]
  refine ⟨counters.set c left, ?_, List.length_set, fun x => ?_⟩
  · rw [value, if_pos rfl]
    simp only [discount, own]
  · rw [value]
    by_cases same : x = c
    · rw [if_pos same, if_pos same, same, own]
    · rw [if_neg same, if_neg same, Nat.add_zero]

/-- Children that are listed once and have counters above zero are all taken off, and those wait
whose counters come to zero. -/
theorem foldlM_discount (once : children.Nodup) :
    ∀ (queue : List Nat) {counters : List Nat}, (∀ c ∈ children, 0 < counters.getD c 0) →
      ∃ after, children.foldlM discount (counters, queue) =
          some (after, queue ++ children.filter fun c => after.getD c 0 = 0) ∧
        after.length = counters.length ∧
        ∀ x, counters.getD x 0 = after.getD x 0 + if x ∈ children then 1 else 0 := by
  induction children with
  | nil =>
    intro queue counters _
    exact ⟨counters, by simp, rfl, by simp⟩
  | cons c rest ih =>
    intro queue counters positive
    obtain ⟨new, once⟩ := List.nodup_cons.mp once
    obtain ⟨next, step, length, taken⟩ := discount_spec (positive c (by simp)) queue
    have kept : ∀ x ∈ rest, 0 < next.getD x 0 := by
      intro x hx
      have other : x ≠ c := by
        rintro rfl
        exact new hx
      have before := positive x (List.mem_cons_of_mem c hx)
      rwa [taken, if_neg other, Nat.add_zero] at before
    obtain ⟨after, run, length', behind⟩ :=
      ih once (if next.getD c 0 = 0 then queue ++ [c] else queue) kept
    -- The child is not listed again, so that its counter stays as it is now.
    have stays : next.getD c 0 = after.getD c 0 := by rw [behind, if_neg new, Nat.add_zero]
    refine ⟨after, ?_, length'.trans length, fun x => ?_⟩
    · rw [List.foldlM_cons, step, Option.bind_eq_bind, Option.bind_some, run, List.filter_cons,
        stays]
      by_cases released : after.getD c 0 = 0
      · simp only [released, if_true, decide_true, List.append_assoc, List.singleton_append]
      · simp only [released, if_false, decide_false, Bool.false_eq_true]
    · rw [taken, behind]
      by_cases same : x = c
      · simp [same, new]
      · simp [same]

/-! ## The loop -/

/-- In the end the nodes with counters above zero are those left over. -/
theorem Counting.findIdx?_eq (counting : Counting g g.released counters) :
    counters.findIdx? (0 < ·) = (List.range g.size).find? (· ∉ g.released) := by
  have left {x : Nat} (inside : x < counters.length) : 0 < counters[x] ↔ x ∉ g.released := by
    rw [← List.getD_eq_getElem counters 0 inside, counting.left, Nat.pos_iff_ne_zero, not_iff_not,
      toCome_eq_zero_iff]
    constructor
    · exact released_complete (counting.length ▸ inside)
    · intro listed
      exact (releasing_released g).ready x (by simpa using listed)
  apply Option.ext
  intro x
  rw [List.findIdx?_eq_some_iff_getElem, List.find?_range_eq_some, List.mem_range,
    ← counting.length]
  simp only [decide_eq_true_eq, left, Bool.not_eq_true', decide_eq_false_iff_not]
  constructor
  · rintro ⟨inside, here, before⟩
    exact ⟨here, inside, before⟩
  · rintro ⟨here, inside, before⟩
    exact ⟨inside, here, before⟩

section Rows

variable (rows : ∀ x, (g.succ x).Nodup)
include rows

/-- Putting a node in order takes it off the counters of its children, none of which is at zero,
and those of them wait whose parents are all in order. -/
theorem Counting.step (counting : Counting g order counters) (inside : i < g.size)
    (waits : i ∉ order) (queue : List Nat) : ∃ after,
      (g.transpose.succ i).foldlM discount (counters, queue) = some (after, queue ++
        (g.transpose.succ i).filter fun c => (g.succ c).all (· ∈ order ++ [i])) ∧
      Counting g (order ++ [i]) after := by
  have child {x : Nat} : x ∈ g.transpose.succ i ↔ i ∈ g.succ x := by
    simp [mem_transpose_succ, inside]
  have positive : ∀ c ∈ g.transpose.succ i, 0 < counters.getD c 0 := by
    intro c hc
    rw [counting.left, toCome_snoc (rows c) waits, if_pos (child.mp hc)]
    omega
  obtain ⟨after, eq, length, taken⟩ := foldlM_discount (nodup_transpose_succ g i) queue positive
  have left (x : Nat) : after.getD x 0 = g.toCome (order ++ [i]) x := by
    have before := taken x
    rw [counting.left, toCome_snoc (rows x) waits] at before
    simp only [child] at before
    omega
  refine ⟨after, ?_, length.trans counting.length, left⟩
  have released : ((g.transpose.succ i).filter fun c => after.getD c 0 = 0) =
      (g.transpose.succ i).filter fun c => (g.succ c).all (· ∈ order ++ [i]) := by
    apply List.filter_congr
    intro c _
    rw [Bool.eq_iff_iff, decide_eq_true_iff, left, toCome_eq_zero_iff]
    simp only [List.all_eq_true, decide_eq_true_eq]
  rw [eq, released]

/-- The counters and the parents in order release the same nodes at each step. -/
theorem Counting.run {fuel : Nat} : ∀ {queue order counters : List Nat},
    Releasing g queue order → Counting g order counters → g.size < order.length + fuel →
      ∃ after, countedFrom g.transpose fuel (counters, queue) order =
          some (after, parentsFirstFrom g g.transpose fuel queue order) ∧
        Counting g (parentsFirstFrom g g.transpose fuel queue order) after := by
  induction fuel with
  | zero =>
    -- No node is put in order twice, so that the fuel lasts until no node waits.
    intro queue order counters inv _ enough
    have few := inv.length_le
    omega
  | succ fuel ih =>
    intro queue order counters inv counting enough
    cases queue with
    | nil => exact ⟨counters, rfl, counting⟩
    | cons i queue =>
      obtain ⟨next, eq, counting⟩ := counting.step rows (inv.inside i (by simp)) inv.waits queue
      obtain ⟨after, run, counting⟩ := ih inv.step counting (by simp; omega)
      refine ⟨after, ?_, counting⟩
      rw [countedFrom, eq]
      exact run

/-- Where no row lists a parent twice, the loop over counters comes to its end without taking
anything off a counter at zero, and its result is the same. -/
theorem countedParentsFirst_eq : countedParentsFirst g g.transpose = some g.parentsFirst := by
  have start : ((List.range g.size).filter fun i => (g.rows.map (·.length)).getD i 0 = 0) =
      (List.range g.size).filter fun i => g.succ i = [] := by
    apply List.filter_congr
    intro i _
    rw [Bool.eq_iff_iff, decide_eq_true_iff, decide_eq_true_iff, (counting_start g).left,
      toCome_eq_zero_iff, List.eq_nil_iff_forall_not_mem]
    simp
  have enough : g.size < ([] : List Nat).length + (g.size + 1) := by simp
  obtain ⟨after, run, counting⟩ := Counting.run rows (releasing_start g) (counting_start g) enough
  rw [← released] at run counting
  simp only [countedParentsFirst, parentsFirst]
  rw [start, run, Option.bind_eq_bind, Option.bind_some, counting.findIdx?_eq]
  rfl

end Rows

end Digraph

end VtableCloud
