import Mathlib.Data.List.GetD
import VtableCloud.Hierarchy.Query
import VtableCloud.Proofs.Digraph.DepthFirst
import VtableCloud.Proofs.Hierarchy.Clouds
import VtableCloud.Proofs.Hierarchy.Linking
import VtableCloud.Proofs.Word

/-!
# Hierarchies built from records

`Hierarchy.WellFormed` is what every hierarchy built from records looks like, and all that
later results use of how it was built.

* `wellFormed_of_ofRecords`: building from records gives a well formed hierarchy;
* `WellFormed.find?_key`, `WellFormed.find?_eq_some`: keys and nodes name each other;
* `WellFormed.acyclic_childGraph`, `mem_preorder`: descent has no cycles, and a preorder
  lists the descendants;
* `WellFormed.descends_cloudRoot`, `cloudRoot_of_descends`: a node descends from the root of
  its cloud, and so do all its descendants.
-/

namespace VtableCloud

namespace Digraph

theorem Reaches.of_transpose {g : Digraph} {a b : Nat} (h : g.transpose.Reaches a b) :
    g.Reaches b a := by
  induction h with
  | refl a => exact .refl a
  | step edge _ ih => exact ih.trans (.edge (mem_transpose_succ.mp edge).2)

theorem Acyclic.transpose {g : Digraph} (h : g.Acyclic) : g.transpose.Acyclic := by
  rintro a ⟨b, edge, path⟩
  exact h b ⟨a, (mem_transpose_succ.mp edge).2, path.of_transpose⟩

end Digraph

namespace Hierarchy

/-- No vtable has more elements than the greatest signed word, as is so of lists in memory. -/
def InMemory (h : Hierarchy) : Prop := ∀ r ∈ h.records, r.elements.length < signBit

instance (h : Hierarchy) : Decidable h.InMemory :=
  inferInstanceAs (Decidable (∀ r ∈ h.records, r.elements.length < signBit))

/-- What a hierarchy built from records looks like. -/
structure WellFormed (h : Hierarchy) : Prop where
  collected : Collected h.records
  keys : (h.nodes.map (·.key)).Pairwise (· < ·)
  linked : h.childGraph = h.parentGraph.transpose
  acyclic : h.parentGraph.Acyclic
  founded : WellFounded fun p c => p ∈ h.parents c
  parents_lt : ∀ c, ∀ p ∈ h.parents c, p < h.size
  described : ∀ n ∈ h.nodes, ∃ r ∈ h.records, ∃ s ∈ r.subVtables, n.key = r.key s.order ∧
    n.start = s.start ∧ n.last = s.last ∧ n.addressPoint = s.addressPoint ∧
    n.isDefined = r.isDefined ∧ (n.parents = [] → s.parents.keys = [])
  cloudRoot_parentless : ∀ id, h.parents id = [] → h.cloudRoot id = id
  cloudRoot_parent : ∀ c, ∀ p ∈ h.parents c, h.cloudRoot p = h.cloudRoot c

theorem topologicalOrder_ok {nodes : List Node} {order : List NodeId}
    (h : topologicalOrder nodes = .ok order) :
    (Digraph.mk (nodes.map (·.parents))).parentsFirst = .ok order := by
  rw [topologicalOrder] at h
  split at h
  · rename_i eq
    exact eq.trans (by rw [Except.ok.inj h])
  · cases h

/-- The steps of building a hierarchy from records. -/
theorem ofRecords_ok {records : List ClassRecord} {h : Hierarchy} (ok : ofRecords records = .ok h) :
    ∃ rows order, collectRecords records = .ok h.records ∧ parentRows h.records = .ok rows ∧
      h.nodes = nodesOf h.records ⟨rows⟩ ∧ topologicalOrder h.nodes = .ok order ∧
      assignClouds h.nodes order = .ok h.cloudRoots := by
  obtain ⟨collected, hc, ok⟩ := bind_ok.mp ok
  obtain ⟨nodes, hn, ok⟩ := bind_ok.mp ok
  obtain ⟨order, ho, ok⟩ := bind_ok.mp ok
  obtain ⟨owners, hr, ok⟩ := bind_ok.mp ok
  obtain rfl : Hierarchy.mk collected nodes owners = h := Except.ok.inj ok
  obtain ⟨rows, hp, rest⟩ := bind_ok.mp hn
  obtain rfl : nodesOf collected ⟨rows⟩ = nodes := Except.ok.inj rest
  exact ⟨rows, order, hc, hp, rfl, ho, hr⟩

theorem parentGraph_nodesOf {records : List ClassRecord} {rows : List (List NodeId)}
    (length : rows.length = (subVtablesOf records).length) :
    (nodesOf records ⟨rows⟩).map (·.parents) = rows := by
  refine List.ext_getElem? fun i => ?_
  rw [List.getElem?_map, getElem?_nodesOf, Option.map_map]
  rcases Nat.lt_or_ge i rows.length with lt | ge
  · simp [Digraph.succ, lt, length ▸ lt]
  · simp [ge, length ▸ ge]

theorem parentGraph_of_rows {h : Hierarchy} {rows : List (List NodeId)}
    (linked : parentRows h.records = .ok rows) (nodes : h.nodes = nodesOf h.records ⟨rows⟩) :
    h.parentGraph = ⟨rows⟩ := by
  rw [parentGraph, nodes, parentGraph_nodesOf (length_parentRows linked)]

theorem childGraph_nodesOf {records : List ClassRecord} {rows : List (List NodeId)}
    (length : rows.length = (subVtablesOf records).length) :
    (nodesOf records ⟨rows⟩).map (·.children) = (Digraph.mk rows).transpose.rows := by
  have size : (Digraph.mk rows).transpose.rows.length = (subVtablesOf records).length :=
    (Digraph.size_transpose _).trans length
  refine List.ext_getElem? fun i => ?_
  rw [List.getElem?_map, getElem?_nodesOf, Option.map_map]
  rcases Nat.lt_or_ge i (subVtablesOf records).length with lt | ge
  · simp [Digraph.succ, lt, size ▸ lt]
  · simp [ge, size ▸ ge]

theorem wellFormed_of_ofRecords {records : List ClassRecord} {h : Hierarchy}
    (ok : ofRecords records = .ok h) : h.WellFormed := by
  obtain ⟨rows, order, hc, hp, hn, ho, hr⟩ := ofRecords_ok ok
  have collected := collected_of_collectRecords hc
  have length := length_parentRows hp
  have parents := parentGraph_of_rows hp hn
  obtain ⟨first, all⟩ := Digraph.parentsFirst_ok (topologicalOrder_ok ho)
  have assigned := assigned_of_assignClouds first hr
  have listed (id p : NodeId) (hp : p ∈ h.parents id) : id ∈ order := by
    refine all id ?_
    rw [← succ_parentGraph] at hp
    exact Digraph.lt_size_of_mem_succ hp
  exact {
    collected := collected
    keys := by
      rw [hn, map_key_nodesOf]
      exact sorted_keysOf collected
    linked := by
      rw [childGraph, hn, childGraph_nodesOf length, parents]
    acyclic := first.acyclic all
    founded := by
      have founded := first.founded all
      rw [show Digraph.mk (h.nodes.map (·.parents)) = h.parentGraph from rfl] at founded
      simpa only [succ_parentGraph] using founded
    parents_lt := by
      intro c p hp'
      rw [← succ_parentGraph, parents] at hp'
      have := parent_lt hp hp'
      rw [size, hn, length_nodesOf]
      exact this
    described := by
      intro n hmem
      obtain ⟨i, hi⟩ := List.mem_iff_getElem?.mp hmem
      rw [hn, getElem?_nodesOf, Option.map_eq_some_iff] at hi
      obtain ⟨⟨r, s⟩, hs, rfl⟩ := hi
      obtain ⟨hr, hs'⟩ := mem_subVtablesOf.mp (List.mem_of_getElem? hs)
      exact ⟨r, hr, s, hs', rfl, rfl, rfl, rfl, rfl, parents_empty hp hs⟩
    cloudRoot_parentless := by
      intro id none
      by_cases taken : id ∈ order
      · exact assigned.parentless id taken none
      · exact assigned.untouched id taken
    cloudRoot_parent := fun c p hp => assigned.inherited c (listed c p hp) p hp }

variable {h : Hierarchy}

theorem lt_size_of_mem_parents {c p : NodeId} (hp : p ∈ h.parents c) : c < h.size := by
  have inside := Digraph.lt_size_of_mem_succ (succ_parentGraph h c ▸ hp)
  simpa [Digraph.size, parentGraph, size] using inside

theorem lt_size_of_mem_children {c p : NodeId} (hc : c ∈ h.children p) : p < h.size := by
  have inside := Digraph.lt_size_of_mem_succ (succ_childGraph h p ▸ hc)
  simpa [Digraph.size, childGraph, size] using inside

theorem lt_size_of_isDefined {id : NodeId} (defined : h.isDefined id = true) : id < h.size := by
  rcases Nat.lt_or_ge id h.size with lt | ge
  · exact lt
  · rw [isDefined, node, List.getD_eq_default _ _ ge] at defined
    cases defined

theorem size_childGraph (h : Hierarchy) : h.childGraph.size = h.size := by
  simp [Digraph.size, childGraph, size]

theorem node_eq_getElem {id : NodeId} (lt : id < h.nodes.length) : h.node id = h.nodes[id] :=
  List.getD_eq_getElem _ _ lt

theorem node_mem {id : NodeId} (lt : id < h.size) : h.node id ∈ h.nodes :=
  node_eq_getElem lt ▸ List.getElem_mem lt

theorem getElem?_nodes {id : NodeId} (lt : id < h.size) : h.nodes[id]? = some (h.node id) := by
  rw [node_eq_getElem lt]
  exact List.getElem?_eq_getElem lt

theorem descends_of_mem_children {p c : NodeId} (hc : c ∈ h.children p) : h.Descends p c :=
  Digraph.Reaches.edge (succ_childGraph h p ▸ hc)

theorem mem_preorder {b d : NodeId} : d ∈ h.preorder b ↔ h.Descends b d := Digraph.mem_preorder

theorem mem_roots {root : String} :
    root ∈ h.roots ↔ ∃ id < h.size, h.parents id = [] ∧ h.key id = .primary root := by
  simp only [roots, List.mem_map, List.mem_filter, Bool.and_eq_true, List.isEmpty_iff]
  constructor
  · rintro ⟨n, ⟨hn, primary, none⟩, rfl⟩
    obtain ⟨id, lt, rfl⟩ := List.getElem_of_mem hn
    have node := node_eq_getElem lt
    refine ⟨id, lt, by rw [parents, node, none], ?_⟩
    rw [key, node]
    have first : (h.nodes[id]).key.order = 0 := by simpa [SubVtableKey.isPrimary] using primary
    rw [SubVtableKey.primary, ← first]
  · rintro ⟨id, lt, none, key⟩
    refine ⟨h.node id, ⟨node_mem lt, ?_, none⟩, ?_⟩
    · rw [show (h.node id).key = .primary root from key]
      rfl
    · rw [show (h.node id).key = .primary root from key]
      rfl

namespace WellFormed

theorem mem_children (wf : h.WellFormed) {p c : NodeId} : c ∈ h.children p ↔ p ∈ h.parents c := by
  rw [← succ_childGraph, ← succ_parentGraph, wf.linked, Digraph.mem_transpose_succ]
  constructor
  · exact fun edge => edge.2
  · intro hp
    refine ⟨?_, hp⟩
    have := wf.parents_lt c p (succ_parentGraph h c ▸ hp)
    simpa [Digraph.size, parentGraph, size] using this

theorem acyclic_childGraph (wf : h.WellFormed) : h.childGraph.Acyclic :=
  wf.linked ▸ wf.acyclic.transpose

theorem lt_size_of_descends (wf : h.WellFormed) {b d : NodeId} (path : h.Descends b d)
    (lt : b < h.size) : d < h.size := by
  induction path with
  | refl => exact lt
  | step edge _ ih =>
    exact ih (lt_size_of_mem_parents (wf.mem_children.mp (succ_childGraph h _ ▸ edge)))

theorem find?_key (wf : h.WellFormed) {id : NodeId} (lt : id < h.size) :
    h.find? (h.key id) = some id := by
  have inside : id < h.nodes.length := lt
  have sorted := List.pairwise_iff_getElem.mp wf.keys
  rw [find?, List.findIdx?_eq_some_iff_getElem, key, node_eq_getElem inside]
  refine ⟨inside, by simp, fun j before same => ?_⟩
  have early : j < h.nodes.length := Nat.lt_trans before inside
  have less := sorted j id (by simpa using early) (by simpa using inside) before
  simp only [List.getElem_map, beq_iff_eq.mp same] at less
  exact SubVtableKey.lt_irrefl _ less

theorem find?_eq_some (wf : h.WellFormed) {k : SubVtableKey} {id : NodeId} :
    h.find? k = some id ↔ id < h.size ∧ h.key id = k := by
  constructor
  · intro found
    rw [find?, List.findIdx?_eq_some_iff_getElem] at found
    obtain ⟨lt, eq, -⟩ := found
    exact ⟨lt, by rw [key, node_eq_getElem lt, beq_iff_eq.mp eq]⟩
  · rintro ⟨lt, rfl⟩
    exact wf.find?_key lt

theorem key_inj (wf : h.WellFormed) {a b : NodeId} (ha : a < h.size) (hb : b < h.size)
    (eq : h.key a = h.key b) : a = b := by
  have found := wf.find?_key ha
  rw [eq, wf.find?_key hb] at found
  exact (Option.some.inj found).symm

theorem pointed (wf : h.WellFormed) {id : NodeId} (lt : id < h.size) :
    (h.node id).start ≤ (h.node id).addressPoint ∧ (h.node id).addressPoint ≤ (h.node id).last := by
  obtain ⟨r, hr, s, hs, -, start, last, point, -⟩ := wf.described _ (node_mem lt)
  rw [start, last, point]
  exact (wf.collected.wellFormed r hr).pointed s hs

/-- Slots are numbered by words. -/
theorem last_lt (wf : h.WellFormed) {id : NodeId} (lt : id < h.size) :
    (h.node id).last < wordCount := by
  obtain ⟨r, -, s, -, -, -, last, -⟩ := wf.described _ (node_mem lt)
  rw [last]
  exact s.last.isLt

/-- The records are found by their names. -/
theorem record?_of_mem (wf : h.WellFormed) {r : ClassRecord} (hr : r ∈ h.records) :
    h.record? r.name = some r := by
  obtain ⟨before, after, eq⟩ := List.append_of_mem hr
  have sorted := wf.collected.sorted
  rw [eq, List.pairwise_append] at sorted
  rw [record?, eq, List.find?_append, List.find?_eq_none.mpr, Option.none_or, List.find?_cons,
    beq_self_eq_true]
  intro q hq same
  have less := sorted.2.2 q hq r (by simp)
  rw [beq_iff_eq.mp same] at less
  exact String.lt_irrefl _ less

/-- The record of a defined node has an element for every slot of the node. -/
theorem elements (wf : h.WellFormed) {id : NodeId} (defined : h.isDefined id = true) :
    ∃ r, h.record? (h.key id).className = some r ∧ (h.node id).last < r.elements.length := by
  obtain ⟨r, hr, s, hs, key, -, last, -, isDefined, -⟩ :=
    wf.described _ (node_mem (lt_size_of_isDefined defined))
  refine ⟨r, ?_, ?_⟩
  · rw [Hierarchy.key, key]
    exact wf.record?_of_mem hr
  · rw [last]
    exact (wf.collected.wellFormed r hr).elements (isDefined ▸ defined) s hs

/-- In memory the slots of a defined sub-vtable are numbered by signed words. -/
theorem last_lt_signBit (wf : h.WellFormed) (inMemory : h.InMemory) {id : NodeId}
    (defined : h.isDefined id = true) : (h.node id).last < signBit := by
  obtain ⟨r, record, enough⟩ := wf.elements defined
  exact Nat.lt_trans enough (inMemory r (List.mem_of_find?_eq_some record))

/-- And so the start of one is a signed word. -/
theorem signedWord_start (wf : h.WellFormed) (inMemory : h.InMemory) {id : NodeId}
    (defined : h.isDefined id = true) : signedWord (h.node id).start = (h.node id).start := by
  have last := wf.last_lt_signBit inMemory defined
  have point := wf.pointed (lt_size_of_isDefined defined)
  exact signedWord_of_lt (by omega)

/-! ## Clouds -/

theorem cloudRoot_of_descends (wf : h.WellFormed) {b d : NodeId} (path : h.Descends b d) :
    h.cloudRoot d = h.cloudRoot b := by
  induction path with
  | refl => rfl
  | step edge _ ih =>
    have up := wf.mem_children.mp (succ_childGraph h _ ▸ edge)
    exact ih.trans (wf.cloudRoot_parent _ _ up).symm

/-- The root of a cloud has no parents, and all of the cloud descends from it. -/
theorem cloudRoot_spec (wf : h.WellFormed) (id : NodeId) :
    h.parents (h.cloudRoot id) = [] ∧ h.Descends (h.cloudRoot id) id := by
  induction id using wf.founded.induction with
  | _ id ih =>
    rcases eq : h.parents id with _ | ⟨p, rest⟩
    · rw [wf.cloudRoot_parentless id eq]
      exact ⟨eq, .refl id⟩
    · have up : p ∈ h.parents id := by simp [eq]
      rw [← wf.cloudRoot_parent id p up]
      obtain ⟨none, path⟩ := ih p up
      exact ⟨none, path.trans (descends_of_mem_children (wf.mem_children.mpr up))⟩

theorem descends_cloudRoot (wf : h.WellFormed) (id : NodeId) : h.Descends (h.cloudRoot id) id :=
  (wf.cloudRoot_spec id).2

theorem cloudRoot_lt (wf : h.WellFormed) {id : NodeId} (lt : id < h.size) :
    h.cloudRoot id < h.size := by
  have path := wf.descends_cloudRoot id
  generalize h.cloudRoot id = root at path
  cases path with
  | refl => exact lt
  | step edge _ => exact lt_size_of_mem_children (succ_childGraph h root ▸ edge)

/-- A node without parents is primary. -/
theorem isPrimary_of_parentless (wf : h.WellFormed) {id : NodeId} (lt : id < h.size)
    (none : h.parents id = []) : h.key id = .primary (h.key id).className := by
  obtain ⟨r, hr, s, hs, key, -, -, -, -, orphan⟩ := wf.described _ (node_mem lt)
  have first : s.order = 0 := by
    by_contra later
    exact (wf.collected.wellFormed r hr).rooted s hs (Nat.pos_of_ne_zero later) (orphan none)
  rw [Hierarchy.key, key, first]
  rfl

theorem rootId_of_mem (wf : h.WellFormed) {root : String} (hr : root ∈ h.roots) :
    ∃ id < h.size, h.rootId root = .ok id ∧ h.key id = .primary root ∧ h.cloudRoot id = id := by
  obtain ⟨id, lt, none, key⟩ := mem_roots.mp hr
  refine ⟨id, lt, ?_, key, wf.cloudRoot_parentless id none⟩
  have known : h.find? (.primary root) = some id := wf.find?_eq_some.mpr ⟨lt, key⟩
  rw [rootId, isRoot, if_pos (List.contains_iff_mem.mpr hr), nodeId, known]

/-- The class of the root of a node's cloud is a root class. -/
theorem cloudRoot_mem_roots (wf : h.WellFormed) {id : NodeId} (lt : id < h.size) :
    (h.key (h.cloudRoot id)).className ∈ h.roots := by
  have inside := wf.cloudRoot_lt lt
  have none := (wf.cloudRoot_spec id).1
  exact mem_roots.mpr ⟨_, inside, none, wf.isPrimary_of_parentless inside none⟩

theorem rootId_ok (wf : h.WellFormed) {name : String} {id : NodeId}
    (ok : h.rootId name = .ok id) : id < h.size ∧ h.key id = .primary name := by
  by_cases known : name ∈ h.roots
  · obtain ⟨id', lt, ok', key, -⟩ := wf.rootId_of_mem known
    obtain rfl := Except.ok.inj (ok.symm.trans ok')
    exact ⟨lt, key⟩
  · rw [rootId, isRoot, if_neg (by simpa using known)] at ok
    cases ok

theorem rootId_cloudRoot (wf : h.WellFormed) {id : NodeId} (lt : id < h.size) :
    h.rootId (h.key (h.cloudRoot id)).className = .ok (h.cloudRoot id) := by
  have inside := wf.cloudRoot_lt lt
  obtain ⟨root, inside', ok, key, -⟩ := wf.rootId_of_mem (wf.cloudRoot_mem_roots lt)
  rw [← wf.isPrimary_of_parentless inside (wf.cloudRoot_spec id).1] at key
  rw [ok, wf.key_inj inside' inside key]

end WellFormed

end Hierarchy

end VtableCloud
