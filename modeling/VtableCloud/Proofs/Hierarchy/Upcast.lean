import VtableCloud.Proofs.Digraph.Search
import VtableCloud.Proofs.Hierarchy.Consistency

/-!
# Upcasts

An upcast is looked up from a class towards its parents, and calls are checked from a class
towards its children. Both follow the same edges.

* `Inherits`: one key descends from another, and both are known;
* `isAncestorId_iff`, `isAncestor_iff`: going up from a node leads to those that it descends from;
* `WellFormed.mem_ordersBelow`: the sub-vtables of a class that are found below a node;
* `WellFormed.upcast_eq_unique_iff`, `WellFormed.upcast_eq_ambiguous_iff`,
  `WellFormed.upcast_eq_unrelated_iff`: the three outcomes, for known and unknown classes alike.
-/

namespace VtableCloud

namespace Hierarchy

variable {h : Hierarchy}

/-- Both keys are known, and the second is the first or inherits from it. -/
def Inherits (h : Hierarchy) (base derived : SubVtableKey) : Prop :=
  ∃ b d, h.find? base = some b ∧ h.find? derived = some d ∧ h.Descends b d

namespace WellFormed

/-- Going down the edges is going up the turned edges. -/
theorem reaches_parentGraph_iff (wf : h.WellFormed) {b d : NodeId} :
    h.parentGraph.Reaches d b ↔ h.Descends b d := by
  constructor
  · intro path
    induction path with
    | refl => exact .refl _
    | step edge _ ih =>
      rw [succ_parentGraph, ← wf.mem_children] at edge
      exact ih.trans (descends_of_mem_children edge)
  · intro path
    rw [Descends, wf.linked] at path
    exact path.of_transpose

theorem isAncestorId_iff (wf : h.WellFormed) {b d : NodeId} :
    h.isAncestorId b d = true ↔ h.Descends b d := by
  rw [isAncestorId, Digraph.search_iff, wf.reaches_parentGraph_iff]

theorem isAncestor_iff (wf : h.WellFormed) {base derived : SubVtableKey} :
    h.isAncestor base derived = true ↔ h.Inherits base derived := by
  rw [isAncestor, Inherits]
  cases h.find? base with
  | none => simp
  | some b =>
    cases h.find? derived with
    | none => simp
    | some d => simp [wf.isAncestorId_iff]

/-- A key that is known is that of a sub-vtable in the record of its class. -/
theorem record_of_find? (wf : h.WellFormed) {name : String} {order : Nat} {id : NodeId}
    (found : h.find? ⟨name, order⟩ = some id) :
    ∃ r, h.record? name = some r ∧ order ∈ r.subVtables.map (·.order) := by
  obtain ⟨lt, key⟩ := wf.find?_eq_some.mp found
  obtain ⟨r, -, s, hs, own, record, -⟩ := wf.subVtable_of_node lt
  rw [key] at own record
  obtain ⟨-, rfl⟩ := SubVtableKey.mk.inj own
  exact ⟨r, record, List.mem_map_of_mem hs⟩

/-- The orders below a node are those whose key descends from it. -/
theorem mem_ordersBelow (wf : h.WellFormed) {r : ClassRecord} {derived base : String} {id : NodeId}
    (record : h.record? derived = some r) (found : h.find? (.primary base) = some id)
    {order : Nat} :
    order ∈ h.ordersBelow id r ↔ h.Inherits (.primary base) ⟨derived, order⟩ := by
  have name : r.name = derived := by
    have := List.find?_some record
    exact beq_iff_eq.mp this
  rw [ordersBelow, List.mem_filter, ClassRecord.key, name, Option.any_eq_true]
  constructor
  · rintro ⟨-, d, found', above⟩
    exact ⟨id, d, found, found', wf.isAncestorId_iff.mp above⟩
  · rintro ⟨id', d, found', found'', path⟩
    obtain rfl := Option.some.inj (found.symm.trans found')
    obtain ⟨r', record', listed⟩ := wf.record_of_find? found''
    obtain rfl := Option.some.inj (record.symm.trans record')
    exact ⟨listed, d, found'', wf.isAncestorId_iff.mpr path⟩

/-- The orders below a node are listed once each. -/
theorem nodup_ordersBelow (wf : h.WellFormed) {r : ClassRecord} {derived : String}
    (record : h.record? derived = some r) (id : NodeId) : (h.ordersBelow id r).Nodup := by
  have sorted := (wf.collected.wellFormed r (List.mem_of_find?_eq_some record)).sorted_orders
  refine List.Pairwise.filter _ (List.pairwise_map.mpr (sorted.imp fun lt => Nat.ne_of_lt lt))

/-- The outcome of an upcast lists the sub-vtables that descend from the base. -/
theorem upcast_eq (wf : h.WellFormed) (derived base : String) :
    ∃ orders : List Nat, orders.Nodup ∧
      (∀ i, i ∈ orders ↔ h.Inherits (.primary base) ⟨derived, i⟩) ∧
      h.upcast derived base = match orders with
        | [] => .unrelated
        | [order] => .unique order
        | _ => .ambiguous := by
  rw [upcast]
  cases record : h.record? derived with
  | none =>
    refine ⟨[], List.nodup_nil, fun i => ⟨fun none => absurd none List.not_mem_nil, ?_⟩, rfl⟩
    rintro ⟨b, d, -, found, -⟩
    obtain ⟨r, record', -⟩ := wf.record_of_find? found
    rw [record] at record'
    cases record'
  | some r =>
    cases found : h.find? (.primary base) with
    | none =>
      refine ⟨[], List.nodup_nil, fun i => ⟨fun none => absurd none List.not_mem_nil, ?_⟩, rfl⟩
      rintro ⟨b, d, found', -⟩
      rw [found] at found'
      cases found'
    | some id =>
      exact ⟨h.ordersBelow id r, wf.nodup_ordersBelow record id,
        fun i => wf.mem_ordersBelow record found, rfl⟩

variable {derived base : String}

/-- An upcast is unique if one sub-vtable of the class, and no other, descends from the base. -/
theorem upcast_eq_unique_iff (wf : h.WellFormed) {i : Nat} :
    h.upcast derived base = .unique i ↔ h.Inherits (.primary base) ⟨derived, i⟩ ∧
      ∀ j, h.Inherits (.primary base) ⟨derived, j⟩ → j = i := by
  obtain ⟨orders, once, mem, eq⟩ := wf.upcast_eq derived base
  simp only [eq, ← mem]
  match orders with
  | [] => simp
  | [order] =>
    simp only [UpcastPath.unique.injEq, List.mem_singleton, forall_eq]
    exact ⟨fun same => ⟨same.symm, same⟩, fun both => both.2⟩
  | first :: second :: rest =>
    refine iff_of_false nofun ?_
    rintro ⟨-, only⟩
    have same := (only first (by simp)).trans (only second (by simp)).symm
    exact (List.nodup_cons.mp once).1 (by simp [same])

/-- An upcast is ambiguous if two sub-vtables of the class descend from the base. -/
theorem upcast_eq_ambiguous_iff (wf : h.WellFormed) :
    h.upcast derived base = .ambiguous ↔ ∃ i j, i ≠ j ∧
      h.Inherits (.primary base) ⟨derived, i⟩ ∧ h.Inherits (.primary base) ⟨derived, j⟩ := by
  obtain ⟨orders, once, mem, eq⟩ := wf.upcast_eq derived base
  simp only [eq, ← mem]
  match orders with
  | [] => simp
  | [order] =>
    refine iff_of_false nofun ?_
    rintro ⟨i, j, ne, hi, hj⟩
    exact ne ((List.mem_singleton.mp hi).trans (List.mem_singleton.mp hj).symm)
  | first :: second :: rest =>
    refine iff_of_true rfl ⟨first, second, ?_, by simp, by simp⟩
    rintro rfl
    exact (List.nodup_cons.mp once).1 List.mem_cons_self

/-- An upcast fails if no sub-vtable of the class descends from the base, or if one of the classes
is unknown. -/
theorem upcast_eq_unrelated_iff (wf : h.WellFormed) :
    h.upcast derived base = .unrelated ↔ ∀ i, ¬ h.Inherits (.primary base) ⟨derived, i⟩ := by
  obtain ⟨orders, -, mem, eq⟩ := wf.upcast_eq derived base
  simp only [eq, ← mem]
  match orders with
  | [] => simp
  | [order] => simp
  | first :: second :: rest => exact iff_of_false nofun fun none => none first List.mem_cons_self

end WellFormed

end Hierarchy

end VtableCloud
