import VtableCloud.Hierarchy.OfRecords
import VtableCloud.Proofs.Hierarchy.Collection

/-!
# The nodes of collected records

Collected records have strictly increasing keys, and each of their sub-vtables becomes the
node at its place, linked to its parents by place.

* `sorted_keysOf`: the keys of collected records;
* `getElem?_nodesOf`: the node at a place;
* `parent_lt`, `parents_empty`, `sorted_parentRow`: what a row of parents holds.
-/

namespace VtableCloud

variable {records : List ClassRecord}

theorem mem_subVtablesOf {r : ClassRecord} {s : SubVtable} :
    (r, s) ∈ subVtablesOf records ↔ r ∈ records ∧ s ∈ r.subVtables := by
  simp [subVtablesOf]

theorem keysOf_eq : keysOf records =
    records.flatMap fun r => r.subVtables.map fun s => r.key s.order := by
  simp [keysOf, subVtablesOf, List.map_flatMap, Function.comp_def]

/-- The sub-vtables of a well formed record stand in the order of their numbers. -/
theorem ClassRecord.WellFormed.sorted_orders {r : ClassRecord} (h : r.WellFormed) :
    r.subVtables.Pairwise fun a b => a.order < b.order := by
  rw [List.pairwise_iff_getElem]
  intro i j hi hj lt
  have first := h.numbered i _ (List.getElem?_eq_getElem hi)
  have second := h.numbered j _ (List.getElem?_eq_getElem hj)
  omega

theorem sorted_keysOf (h : Collected records) : (keysOf records).Pairwise (· < ·) := by
  rw [keysOf_eq, List.pairwise_flatMap]
  constructor
  · intro r hr
    rw [List.pairwise_map]
    exact ((h.wellFormed r hr).sorted_orders).imp fun lt => Or.inr ⟨rfl, lt⟩
  · refine h.sorted.imp fun {a b} lt x hx y hy => ?_
    obtain ⟨_, _, rfl⟩ := List.mem_map.mp hx
    obtain ⟨_, _, rfl⟩ := List.mem_map.mp hy
    exact Or.inl lt

theorem length_nodesOf {parents : Digraph} :
    (nodesOf records parents).length = (subVtablesOf records).length := by
  simp [nodesOf]

/-- The node at the place of a sub-vtable. -/
theorem getElem?_nodesOf {parents : Digraph} {id : NodeId} :
    (nodesOf records parents)[id]? = (subVtablesOf records)[id]?.map fun (r, s) => {
      key := r.key s.order
      start := s.start
      last := s.last
      addressPoint := s.addressPoint
      isDefined := r.isDefined
      parents := parents.succ id
      children := parents.transpose.succ id } := by
  simp only [nodesOf, List.getElem?_map, List.getElem?_zipIdx, Option.map_map, Nat.zero_add]
  rfl

theorem map_key_nodesOf {parents : Digraph} :
    (nodesOf records parents).map (·.key) = keysOf records := by
  refine List.ext_getElem? fun i => ?_
  rw [List.getElem?_map, getElem?_nodesOf, keysOf, List.getElem?_map, Option.map_map]
  rfl

variable {rows : List (List NodeId)}

theorem parentRow_of_ok (h : parentRows records = .ok rows) {id : NodeId} {r : ClassRecord}
    {s : SubVtable} (hs : (subVtablesOf records)[id]? = some (r, s)) :
    ∃ row, rows[id]? = some row ∧
      s.parents.keys.mapM (parentId (keysOf records) (r.key s.order)) = .ok row :=
  (mapM_ok h).2 id (r, s) hs

theorem length_parentRows (h : parentRows records = .ok rows) :
    rows.length = (subVtablesOf records).length :=
  (mapM_ok h).1

theorem parentId_ok {keys : List SubVtableKey} {child parent : SubVtableKey} {id : NodeId} :
    parentId keys child parent = .ok id ↔ keys.idxOf? parent = some id := by
  rw [parentId]
  split
  · rename_i found
    simp [found]
  · rename_i missing
    simp [missing]

/-- Parents are nodes. -/
theorem parent_lt (h : parentRows records = .ok rows) {id p : NodeId}
    (hp : p ∈ (Digraph.mk rows).succ id) : p < (subVtablesOf records).length := by
  have inside : id < rows.length := Digraph.lt_size_of_mem_succ hp
  rw [length_parentRows h] at inside
  obtain ⟨row, hrow, ok⟩ := parentRow_of_ok h (List.getElem?_eq_getElem inside)
  have member : p ∈ row := by simpa [Digraph.succ, hrow] using hp
  obtain ⟨parent, -, found⟩ := mapM_ok_mem ok member
  obtain ⟨lt, -⟩ := List.idxOf?_eq_some_iff.mp (parentId_ok.mp found)
  simpa [keysOf] using lt

theorem parent_lt_size (h : parentRows records = .ok rows) :
    ∀ id, ∀ p ∈ (Digraph.mk rows).succ id, p < (Digraph.mk rows).size := by
  intro id p hp
  rw [Digraph.size, length_parentRows h]
  exact parent_lt h hp

/-- Keys that stand in order have their places in order. -/
theorem place_lt_of_key_lt (collected : Collected records) {i j : Nat} {a b : SubVtableKey}
    (hi : (keysOf records)[i]? = some a) (hj : (keysOf records)[j]? = some b) (lt : a < b) :
    i < j := by
  have sorted := List.pairwise_iff_getElem.mp (sorted_keysOf collected)
  obtain ⟨inside, rfl⟩ := List.getElem?_eq_some_iff.mp hi
  obtain ⟨inside', rfl⟩ := List.getElem?_eq_some_iff.mp hj
  rcases Nat.lt_trichotomy i j with before | rfl | after
  · exact before
  · exact absurd lt (SubVtableKey.lt_irrefl _)
  · have gt := sorted j i inside' inside after
    exact absurd (SubVtableKey.lt_trans lt gt) (SubVtableKey.lt_irrefl _)

/-- Parents are linked in key order. -/
theorem sorted_parentRow (collected : Collected records) (h : parentRows records = .ok rows)
    (id : NodeId) : ((Digraph.mk rows).succ id).Pairwise (· < ·) := by
  rcases Nat.lt_or_ge id (subVtablesOf records).length with inside | beyond
  · have here := List.getElem?_eq_getElem inside
    generalize (subVtablesOf records)[id] = own at here
    obtain ⟨r, s⟩ := own
    obtain ⟨row, hrow, ok⟩ := parentRow_of_ok h here
    have succ : (Digraph.mk rows).succ id = row := by simp [Digraph.succ, hrow]
    have place (i : Nat) (hi : i < row.length) : ∃ parent, s.parents.keys[i]? = some parent ∧
        (keysOf records)[row[i]]? = some parent := by
      have lt : i < s.parents.keys.length := (mapM_ok ok).1 ▸ hi
      obtain ⟨p, hp, found⟩ := (mapM_ok ok).2 i _ (List.getElem?_eq_getElem lt)
      rw [List.getElem?_eq_getElem hi] at hp
      obtain rfl := Option.some.inj hp
      obtain ⟨within, eq, -⟩ := List.idxOf?_eq_some_iff.mp (parentId_ok.mp found)
      exact ⟨_, List.getElem?_eq_getElem lt, List.getElem?_eq_some_iff.mpr ⟨within, eq⟩⟩
    rw [succ, List.pairwise_iff_getElem]
    intro i j hi hj before
    obtain ⟨a, ha, first⟩ := place i hi
    obtain ⟨b, hb, second⟩ := place j hj
    apply place_lt_of_key_lt collected first second
    obtain ⟨lt, rfl⟩ := List.getElem?_eq_some_iff.mp ha
    obtain ⟨lt', rfl⟩ := List.getElem?_eq_some_iff.mp hb
    exact List.pairwise_iff_getElem.mp s.parents.sorted i j lt lt' before
  · rw [← length_parentRows h] at beyond
    rw [Digraph.succ_of_size_le beyond]
    exact .nil

/-- A sub-vtable without parent nodes lists no parent. -/
theorem parents_empty (h : parentRows records = .ok rows) {id : NodeId} {r : ClassRecord}
    {s : SubVtable} (hs : (subVtablesOf records)[id]? = some (r, s))
    (none : (Digraph.mk rows).succ id = []) : s.parents.keys = [] := by
  obtain ⟨row, hrow, ok⟩ := parentRow_of_ok h hs
  have empty : row = [] := by simpa [Digraph.succ, hrow] using none
  exact List.length_eq_zero_iff.mp (by rw [← (mapM_ok ok).1, empty]; rfl)

end VtableCloud
