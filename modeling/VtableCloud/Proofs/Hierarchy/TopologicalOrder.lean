import VtableCloud.Proofs.Digraph.Counters
import VtableCloud.Proofs.Hierarchy.ClosedWorld

/-!
# Nodes in order, parents before children

Collected records are linked to nodes, and the nodes are put in order before clouds are assigned.

* `linksParent_iff`: nodes have the parents that the records list;
* `inOrder_of_ok`: an order lists all nodes once, each behind its parents;
* `countedOrder_eq`: the order comes from counting down the parents still to come, by the children
  that each node is linked to;
* `topologicalOrder_complete`: there is an order just if no key is above itself, and otherwise the
  least key with a cycle above it is named.
-/

namespace VtableCloud

namespace Hierarchy

/-- A node has another as a parent, by their keys. -/
def LinksParent (nodes : List Node) (child parent : SubVtableKey) : Prop :=
  ∃ c, ∃ p ∈ parentsIn nodes c,
    child = (nodes.getD c default).key ∧ parent = (nodes.getD p default).key

/-- All nodes stand in the list once, each behind its parents. -/
structure InOrder (nodes : List Node) (order : List NodeId) : Prop where
  each : order.Perm (List.range nodes.length)
  parentsFirst : ∀ c, ∀ p ∈ parentsIn nodes c, order.idxOf p < order.idxOf c

/-- The order by counters, which start at the number of parents of each node and are counted down
along the links to its children. -/
def countedOrder (nodes : List Node) : Option (Except HierarchyError (List NodeId)) :=
  (Digraph.countedParentsFirst ⟨nodes.map (·.parents)⟩ ⟨nodes.map (·.children)⟩).map fun
    | .ok order => .ok order
    | .error stuck => .error (.cycle (nodes.getD stuck default).key)

section Linked

variable {records : List ClassRecord} {rows : List (List NodeId)} {order : List NodeId}
variable (linked : parentRows records = .ok rows) (collected : Collected records)
include linked collected

theorem linksParent_iff {child parent : SubVtableKey} :
    LinksParent (nodesOf records ⟨rows⟩) child parent ↔ ListsParent records child parent := by
  constructor
  · rintro ⟨c, p, hp, rfl, rfl⟩
    rw [parentsIn_nodesOf linked] at hp
    obtain ⟨child, parent, hc, hp, listed⟩ := listsParent_of_mem_succ linked hp
    rwa [key_nodesOf hc, key_nodesOf hp]
  · intro listed
    obtain ⟨c, hc⟩ := List.mem_iff_getElem?.mp listed.mem_keysOf
    obtain ⟨p, hp, edge⟩ := mem_succ_of_listsParent linked collected hc listed
    rw [← parentsIn_nodesOf linked] at edge
    exact ⟨c, p, edge, (key_nodesOf hc).symm, (key_nodesOf hp).symm⟩

theorem inOrder_of_ok (ordered : topologicalOrder (nodesOf records ⟨rows⟩) = .ok order) :
    InOrder (nodesOf records ⟨rows⟩) order := by
  obtain ⟨free, rfl⟩ := (topologicalOrder_ok_iff linked collected).mp ordered
  have acyclic := (acyclic_iff_not_transGen linked collected).mpr free
  obtain ⟨first, all⟩ := parentsFirst_of_order linked ordered
  constructor
  · rw [length_nodesOf, ← length_parentRows linked]
    exact Digraph.released_perm (parent_lt_size linked) acyclic
  · intro c p hp
    rw [parentsIn_nodesOf linked] at hp
    exact first.idxOf_lt (all c (Digraph.lt_size_of_mem_succ hp)) hp

/-- Counting down the parents gives the same order, or names the same key. -/
theorem countedOrder_eq :
    countedOrder (nodesOf records ⟨rows⟩) = some (topologicalOrder (nodesOf records ⟨rows⟩)) := by
  have length := length_parentRows linked
  have once (x : NodeId) : ((Digraph.mk rows).succ x).Nodup :=
    (sorted_parentRow collected linked x).imp Nat.ne_of_lt
  have counted : Digraph.countedParentsFirst ⟨rows⟩ ⟨(Digraph.mk rows).transpose.rows⟩ =
      some (Digraph.mk rows).parentsFirst := Digraph.countedParentsFirst_eq once
  rw [countedOrder, topologicalOrder, parentGraph_nodesOf length, childGraph_nodesOf length,
    counted]
  cases (Digraph.mk rows).parentsFirst with
  | ok order => rfl
  | error stuck => rfl

end Linked

/-- The nodes of collected records can be put in order just if no key is above itself. An order
lists all nodes once, each behind its parents, and where there is none the least key with a cycle
above it is named. Counting down the parents of each node comes to the same. -/
theorem topologicalOrder_complete {given records : List ClassRecord} {nodes : List Node}
    (collected : collectRecords given = .ok records)
    (linked : linkRecords records = .ok nodes) :
    (∀ child parent, LinksParent nodes child parent ↔ ListsParent records child parent) ∧
    ((∃ order, topologicalOrder nodes = .ok order) ↔ Cyclefree records) ∧
    (∀ order, topologicalOrder nodes = .ok order → InOrder nodes order) ∧
    (¬ Cyclefree records → ∃ key, topologicalOrder nodes = .error (.cycle key) ∧
      BelowCycle records key ∧
      ∀ other, BelowCycle records other → key = other ∨ key < other) ∧
    countedOrder nodes = some (topologicalOrder nodes) := by
  have collected := collected_of_collectRecords collected
  obtain ⟨rows, hrows, rest⟩ := bind_ok.mp linked
  obtain rfl : nodesOf records ⟨rows⟩ = nodes := Except.ok.inj rest
  have ok_iff : (∃ order, topologicalOrder (nodesOf records ⟨rows⟩) = .ok order) ↔
      Cyclefree records := by
    simp [topologicalOrder_ok_iff hrows collected]
  refine ⟨fun child parent => linksParent_iff hrows collected, ok_iff,
    fun order => inOrder_of_ok hrows collected, fun cyclic => ?_, countedOrder_eq hrows collected⟩
  cases result : topologicalOrder (nodesOf records ⟨rows⟩) with
  | ok order => exact absurd (ok_iff.mp ⟨order, result⟩) cyclic
  | error e =>
    obtain ⟨key, rfl, below, least⟩ := least_of_order_error hrows collected result
    exact ⟨key, rfl, below, least⟩

namespace Looped

/-- Two classes that are above each other, a class below one of them, and a class that is not. -/
def given : List ClassRecord := [
  ⟨"Ring", [⟨0, .ofList [.primary "Link"], 0, 0, 0, []⟩], [], false⟩,
  ⟨"Link", [⟨0, .ofList [.primary "Ring"], 0, 0, 0, []⟩], [], false⟩,
  ⟨"Hook", [⟨0, .ofList [.primary "Base", .primary "Link"], 0, 0, 0, []⟩], [], false⟩,
  ⟨"Base", [⟨0, .empty, 0, 0, 0, []⟩], [.null], true⟩]

/-- The records in name order. -/
def records : List ClassRecord := given.reverse

def nodes : List Node := (linkRecords records).toOption.getD []

end Looped

/-- The class below the two that are above each other is named, and the class in front of it has
no cycle above it. -/
theorem looped_complete :
    collectRecords Looped.given = .ok Looped.records ∧
    linkRecords Looped.records = .ok Looped.nodes ∧ ¬ Cyclefree Looped.records ∧
    BelowCycle Looped.records (.primary "Hook") ∧
    ¬ BelowCycle Looped.records (.primary "Base") := by
  have collected : collectRecords Looped.given = .ok Looped.records := by rfl
  have linked : linkRecords Looped.records = .ok Looped.nodes := by rfl
  have stuck : topologicalOrder Looped.nodes = .error (.cycle (.primary "Hook")) := by rfl
  obtain ⟨-, ok_iff, -, named, -⟩ := topologicalOrder_complete collected linked
  have cyclic : ¬ Cyclefree Looped.records := by
    intro free
    obtain ⟨order, ok⟩ := ok_iff.mpr free
    rw [stuck] at ok
    cases ok
  obtain ⟨key, eq, below, least⟩ := named cyclic
  obtain rfl : .primary "Hook" = key := by
    rw [stuck] at eq
    exact HierarchyError.cycle.inj (Except.error.inj eq)
  refine ⟨collected, linked, cyclic, below, fun other => ?_⟩
  have before : ¬ (SubVtableKey.primary "Hook" = .primary "Base" ∨
      SubVtableKey.primary "Hook" < .primary "Base") := by decide
  exact before (least _ other)

end Hierarchy

end VtableCloud
