import Mathlib.Data.Set.Card
import VtableCloud.Proofs.Digraph.Release
import VtableCloud.Proofs.Hierarchy.Lineage
import VtableCloud.Proofs.Hierarchy.WellFormed

/-!
# What the parts of a hierarchy say of each other

Records, nodes, roots and clouds are made one after another, and a question about a hierarchy
goes from one to the next. `Hierarchy.Consistent` says that this cannot go wrong.

* `WellFormed.listsParent_iff`, `mem_parents_iff`: the parents of a node are those that its
  sub-vtable lists;
* `WellFormed.parentless_iff`, `WellFormed.root_unique`: roots are the nodes without parents, and
  no node descends from two of them;
* `cloudSize_eq`: the defined descendants of a node are counted once each;
* `consistent_of_ofRecords`: a hierarchy built from records is consistent.
-/

namespace VtableCloud

theorem ClassRecord.WellFormed.subVtable?_order {r : ClassRecord} (wf : r.WellFormed)
    {s : SubVtable} (hs : s ∈ r.subVtables) : r.subVtable? s.order = some s := by
  obtain ⟨i, hi⟩ := List.mem_iff_getElem?.mp hs
  rw [ClassRecord.subVtable?, wf.numbered i s hi]
  exact hi

namespace Hierarchy

/-- What is kept of a hierarchy in one place agrees with what is kept of it in another. -/
structure Consistent (h : Hierarchy) : Prop where
  /-- Nodes are numbered in the order of their keys. -/
  increasing : ∀ i j, i < j → j < h.size → h.key i < h.key j
  /-- A node is found by its key. -/
  named : ∀ i < h.size, h.nodeId (h.key i) = .ok i
  /-- Parents and children are the same edges. -/
  inverse : ∀ p c, c ∈ h.children p ↔ p ∈ h.parents c
  /-- These edges are the parents that the sub-vtable of a node lists. -/
  listed : ∀ c < h.size, ∃ r s, h.record? (h.key c).className = some r ∧
    r.subVtable? (h.key c).order = some s ∧
    ∀ p, p ∈ h.parents c ↔ p < h.size ∧ h.key p ∈ s.parents
  sortedParents : ∀ i, (h.parents i).Pairwise (· < ·)
  sortedChildren : ∀ i, (h.children i).Pairwise (· < ·)
  /-- A root class has a primary node. -/
  seated : ∀ name ∈ h.roots, ∃ i < h.size, h.rootId name = .ok i ∧ h.key i = .primary name
  /-- Nodes without parents are the primary nodes of the root classes. -/
  rooted : ∀ i < h.size, h.parents i = [] ↔ ∃ name ∈ h.roots, h.rootId name = .ok i
  /-- A node is in the cloud of one root class, and the primary node of this class is noted. -/
  hosted : ∀ i < h.size, ∃ name ∈ h.roots, h.rootId name = .ok (h.cloudRoot i) ∧
    i ∈ h.preorder (h.cloudRoot i) ∧
    ∀ other ∈ h.roots, ∀ root, h.rootId other = .ok root → i ∈ h.preorder root → other = name
  /-- A cloud root is noted for every node. -/
  noted : h.cloudRoots.length = h.size
  inherited : ∀ c, ∀ p ∈ h.parents c, h.cloudRoot p = h.cloudRoot c
  /-- The defined descendants of a node are counted, each once. -/
  counted : ∀ i, h.cloudSize i = {d | h.Descends i d ∧ h.isDefined d = true}.ncard

variable {h : Hierarchy}

/-- Defined descendants are counted once each. -/
theorem cloudSize_eq (h : Hierarchy) (id : NodeId) :
    h.cloudSize id = {d | h.Descends id d ∧ h.isDefined d = true}.ncard := by
  have once : ((h.preorder id).filter (h.isDefined ·)).Nodup :=
    (Digraph.nodup_preorder _ _).filter _
  have same : {d | h.Descends id d ∧ h.isDefined d = true} =
      ((h.preorder id).filter (h.isDefined ·)).toFinset := by
    ext d
    simp [mem_preorder]
  rw [same, Set.ncard_coe_finset, List.toFinset_card_of_nodup once, cloudSize,
    List.countP_eq_length_filter]

namespace WellFormed

theorem key_lt_key (wf : h.WellFormed) {i j : NodeId} (before : i < j) (lt : j < h.size) :
    h.key i < h.key j := by
  have inside : i < h.nodes.length := Nat.lt_trans before lt
  have sorted := List.pairwise_iff_getElem.mp (List.pairwise_map.mp wf.keys) i j inside lt before
  rwa [key, key, node_eq_getElem inside, node_eq_getElem lt]

theorem sorted_children (wf : h.WellFormed) (id : NodeId) : (h.children id).Pairwise (· < ·) := by
  rw [← succ_childGraph, wf.linked]
  exact Digraph.sorted_transpose_succ _ id

theorem lt_size_of_child (wf : h.WellFormed) {p c : NodeId} (hc : c ∈ h.children p) :
    c < h.size :=
  lt_size_of_mem_parents (wf.mem_children.mp hc)

/-- Children are listed in the order of their keys. -/
theorem sorted_child_keys (wf : h.WellFormed) (id : NodeId) :
    ((h.children id).map h.key).Pairwise (· < ·) := by
  rw [List.pairwise_map]
  refine (wf.sorted_children id).imp_of_mem ?_
  intro a b _ hb before
  exact wf.key_lt_key before (wf.lt_size_of_child hb)

/-- The record and the sub-vtable of a node. -/
theorem subVtable_of_node (wf : h.WellFormed) {id : NodeId} (lt : id < h.size) :
    ∃ r ∈ h.records, ∃ s ∈ r.subVtables, h.key id = r.key s.order ∧
      h.record? (h.key id).className = some r ∧ r.subVtable? (h.key id).order = some s := by
  obtain ⟨r, hr, s, hs, key, -⟩ := wf.described _ (node_mem lt)
  refine ⟨r, hr, s, hs, key, ?_, ?_⟩
  · rw [Hierarchy.key, key]
    exact wf.record?_of_mem hr
  · rw [Hierarchy.key, key]
    exact (wf.collected.wellFormed r hr).subVtable?_order hs

/-- A key has one sub-vtable. -/
theorem subVtable_unique (wf : h.WellFormed) {r r' : ClassRecord} {s s' : SubVtable}
    (hr : r ∈ h.records) (hs : s ∈ r.subVtables) (hr' : r' ∈ h.records) (hs' : s' ∈ r'.subVtables)
    (key : r.key s.order = r'.key s'.order) : r = r' ∧ s = s' := by
  obtain ⟨name, order⟩ := SubVtableKey.mk.inj key
  have found := wf.record?_of_mem hr
  rw [name, wf.record?_of_mem hr'] at found
  obtain rfl := Option.some.inj found
  have own := (wf.collected.wellFormed r' hr).subVtable?_order hs
  rw [order, (wf.collected.wellFormed r' hr).subVtable?_order hs'] at own
  exact ⟨rfl, (Option.some.inj own).symm⟩

/-- A key lists the parents of its sub-vtable. -/
theorem listsParent_iff (wf : h.WellFormed) {r : ClassRecord} {s : SubVtable}
    (hr : r ∈ h.records) (hs : s ∈ r.subVtables) {parent : SubVtableKey} :
    ListsParent h.records (r.key s.order) parent ↔ parent ∈ s.parents := by
  constructor
  · rintro ⟨r', hr', s', hs', key, listed⟩
    obtain ⟨-, rfl⟩ := wf.subVtable_unique hr hs hr' hs' key
    exact listed
  · exact fun listed => ⟨r, hr, s, hs, rfl, listed⟩

/-- Nodes without parents are the primary nodes of the root classes. -/
theorem parentless_iff (wf : h.WellFormed) {id : NodeId} (lt : id < h.size) :
    h.parents id = [] ↔ ∃ name ∈ h.roots, h.rootId name = .ok id := by
  constructor
  · intro none
    have own := wf.cloudRoot_parentless id none
    have root := wf.cloudRoot_mem_roots lt
    have found := wf.rootId_cloudRoot lt
    rw [own] at root found
    exact ⟨_, root, found⟩
  · rintro ⟨name, hr, found⟩
    obtain ⟨id', -, found', -, own⟩ := wf.rootId_of_mem hr
    obtain rfl := Except.ok.inj (found.symm.trans found')
    rw [← own]
    exact (wf.cloudRoot_spec id).1

/-- The root class that a node descends from is that of its cloud. -/
theorem root_unique (wf : h.WellFormed) {name : String} (hr : name ∈ h.roots) {id root : NodeId}
    (found : h.rootId name = .ok root) (path : h.Descends root id) :
    name = (h.key (h.cloudRoot id)).className := by
  obtain ⟨root', -, found', key, own⟩ := wf.rootId_of_mem hr
  obtain rfl := Except.ok.inj (found.symm.trans found')
  rw [wf.cloudRoot_of_descends path, own, key]
  rfl

end WellFormed

theorem map_key_nodes {records : List ClassRecord} (ok : ofRecords records = .ok h) :
    h.nodes.map (·.key) = keysOf h.records := by
  obtain ⟨rows, -, -, -, nodes, -⟩ := ofRecords_ok ok
  rw [nodes, map_key_nodesOf]

/-- Every sub-vtable of a record has a node. -/
theorem exists_node {records : List ClassRecord} (ok : ofRecords records = .ok h)
    {key : SubVtableKey} (member : key ∈ keysOf h.records) : ∃ id < h.size, h.key id = key := by
  rw [← map_key_nodes ok] at member
  obtain ⟨n, hn, same⟩ := List.mem_map.mp member
  obtain ⟨id, inside, rfl⟩ := List.getElem_of_mem hn
  exact ⟨id, inside, by rw [Hierarchy.key, node_eq_getElem inside, same]⟩

/-- The parents of a node are those that its sub-vtable lists. -/
theorem mem_parents_iff {records : List ClassRecord} (ok : ofRecords records = .ok h)
    {c p : NodeId} (lt : c < h.size) :
    p ∈ h.parents c ↔ p < h.size ∧ ListsParent h.records (h.key c) (h.key p) := by
  have wf := wellFormed_of_ofRecords ok
  obtain ⟨rows, -, -, linked, nodes, -⟩ := ofRecords_ok ok
  have graph := parentGraph_of_rows linked nodes
  have place {i : NodeId} (inside : i < h.size) : (keysOf h.records)[i]? = some (h.key i) := by
    have named : i < h.nodes.length := inside
    rw [← map_key_nodes ok, List.getElem?_map, List.getElem?_eq_getElem named, key,
      node_eq_getElem named]
    rfl
  rw [← succ_parentGraph, graph]
  constructor
  · intro hp
    have inside : p < h.size := wf.parents_lt c p (by rwa [← succ_parentGraph, graph])
    obtain ⟨child, parent, hc, hparent, listed⟩ := listsParent_of_mem_succ linked hp
    obtain rfl := Option.some.inj ((place lt).symm.trans hc)
    obtain rfl := Option.some.inj ((place inside).symm.trans hparent)
    exact ⟨inside, listed⟩
  · rintro ⟨inside, listed⟩
    obtain ⟨q, hq, edge⟩ := mem_succ_of_listsParent linked wf.collected (place lt) listed
    rwa [place_unique (nodup_keysOf wf.collected) (place inside) hq]

theorem sorted_parents {records : List ClassRecord} (ok : ofRecords records = .ok h) (i : NodeId) :
    (h.parents i).Pairwise (· < ·) := by
  obtain ⟨rows, -, -, linked, nodes, -⟩ := ofRecords_ok ok
  rw [← succ_parentGraph, parentGraph_of_rows linked nodes]
  exact sorted_parentRow (wellFormed_of_ofRecords ok).collected linked i

theorem length_cloudRoots {records : List ClassRecord} (ok : ofRecords records = .ok h) :
    h.cloudRoots.length = h.size := by
  obtain ⟨rows, order, -, -, -, ordered, assigned⟩ := ofRecords_ok ok
  obtain ⟨first, -⟩ := Digraph.parentsFirst_ok (topologicalOrder_ok ordered)
  exact (assigned_of_assignClouds first assigned).length

end Hierarchy

/-- A hierarchy built from records is consistent: nodes stand in key order and are found by their
keys, their edges are those that the records list, both ways and in order, and the nodes without
parents, which are the primary nodes of the root classes, divide all nodes into clouds. -/
theorem consistent_of_ofRecords {records : List ClassRecord} {h : Hierarchy}
    (ingested : Hierarchy.ofRecords records = .ok h) : h.Consistent := by
  have wf := Hierarchy.wellFormed_of_ofRecords ingested
  constructor
  case increasing => exact fun i j before lt => wf.key_lt_key before lt
  case named =>
    intro i lt
    rw [Hierarchy.nodeId, wf.find?_key lt]
  case inverse => exact fun p c => wf.mem_children
  case listed =>
    intro c lt
    obtain ⟨r, hr, s, hs, key, record, subVtable⟩ := wf.subVtable_of_node lt
    refine ⟨r, s, record, subVtable, fun p => ?_⟩
    rw [Hierarchy.mem_parents_iff ingested lt, key, wf.listsParent_iff hr hs]
  case sortedParents => exact Hierarchy.sorted_parents ingested
  case sortedChildren =>
    intro i
    rw [← Hierarchy.succ_childGraph, wf.linked]
    exact Digraph.sorted_transpose_succ _ i
  case seated =>
    intro name hr
    obtain ⟨i, lt, found, key, -⟩ := wf.rootId_of_mem hr
    exact ⟨i, lt, found, key⟩
  case rooted => exact fun i lt => wf.parentless_iff lt
  case hosted =>
    intro i lt
    refine ⟨_, wf.cloudRoot_mem_roots lt, wf.rootId_cloudRoot lt, ?_, ?_⟩
    · exact Hierarchy.mem_preorder.mpr (wf.descends_cloudRoot i)
    · intro other hr root found member
      exact wf.root_unique hr found (Hierarchy.mem_preorder.mp member)
  case noted => exact Hierarchy.length_cloudRoots ingested
  case inherited => exact wf.cloudRoot_parent
  case counted => exact h.cloudSize_eq

namespace Drawing

/-- A class with two bases, which have nothing in common. One of them is emitted elsewhere. -/
def records : List ClassRecord := [
  ⟨"Store", [⟨0, .empty, 0, 2, 2, []⟩], [], false⟩,
  ⟨"Drawing", [⟨0, .ofList [.primary "Shape"], 0, 2, 2, []⟩,
      ⟨1, .ofList [.primary "Store"], 3, 5, 5, []⟩],
    [.offset 0, .rtti "_ZTI7Drawing", .function "_ZN7Drawing1fEv", .offset (-8),
      .rtti "_ZTI7Drawing", .function "_ZThn8_N7Drawing1gEv"], true⟩,
  ⟨"Shape", [⟨0, .empty, 0, 2, 2, []⟩],
    [.offset 0, .rtti "_ZTI5Shape", .function "_ZN5Shape1fEv"], true⟩]

end Drawing

/-- The class lies in the clouds of both of its bases, with one sub-vtable in each. -/
theorem drawing_consistent : ∃ h, Hierarchy.ofRecords Drawing.records = .ok h ∧ h.Consistent ∧
    h.roots = ["Shape", "Store"] ∧ h.cloudRoot 0 = 2 ∧ h.cloudRoot 1 = 3 ∧
    {d | h.Descends 2 d ∧ h.isDefined d = true}.ncard = 2 := by
  obtain ⟨h, ingested⟩ : ∃ h, Hierarchy.ofRecords Drawing.records = .ok h := ⟨_, rfl⟩
  have consistent := consistent_of_ofRecords ingested
  refine ⟨h, ingested, consistent, ?_⟩
  rw [← consistent.counted]
  cases ingested
  decide

end VtableCloud
