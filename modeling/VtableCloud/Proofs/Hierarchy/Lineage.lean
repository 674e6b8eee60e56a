import Mathlib.Logic.Relation
import VtableCloud.Proofs.Digraph.DepthFirst
import VtableCloud.Proofs.Digraph.Topological
import VtableCloud.Proofs.Hierarchy.Linking

/-!
# Lineage

Parents and ancestors as records list them, by key, and as the rows of numbered parents hold
them.

* `ListsParent`, `Lineage`, `RootKey`: which depend only on what records there are, not on
  their order;
* `listsParent_of_mem_succ`, `mem_succ_of_listsParent`: an edge between rows is a listed parent;
* `lineage_of_reaches`, `reaches_of_lineage`: so going up between rows is going up by key;
* `acyclic_iff_not_transGen`, `leadsIntoCycle_iff`: and a cycle between rows is a cycle of keys;
* `parentRows_closed`, `parentRows_error`: there are rows just if all listed parents are known.
-/

namespace VtableCloud

/-- A record lists a key as a parent of its sub-vtable with another key. -/
def ListsParent (records : List ClassRecord) (child parent : SubVtableKey) : Prop :=
  ∃ r ∈ records, ∃ s ∈ r.subVtables, child = r.key s.order ∧ parent ∈ s.parents

/-- A key is another or is reached from it through any number of listed parents. -/
def Lineage (records : List ClassRecord) : SubVtableKey → SubVtableKey → Prop :=
  Relation.ReflTransGen (ListsParent records)

/-- Following listed parents from a key leads to one that is above itself. -/
def BelowCycle (records : List ClassRecord) (key : SubVtableKey) : Prop :=
  ∃ above, Lineage records key above ∧ Relation.TransGen (ListsParent records) above above

/-- A key is that of a sub-vtable without parents. -/
def RootKey (records : List ClassRecord) (key : SubVtableKey) : Prop :=
  key ∈ keysOf records ∧ ∀ parent, ¬ ListsParent records key parent

variable {records : List ClassRecord}

theorem mem_keysOf {key : SubVtableKey} :
    key ∈ keysOf records ↔ ∃ r ∈ records, ∃ s ∈ r.subVtables, key = r.key s.order := by
  simp [keysOf_eq, eq_comm]

theorem length_keysOf : (keysOf records).length = (subVtablesOf records).length :=
  List.length_map _

theorem ListsParent.mem_keysOf {child parent : SubVtableKey}
    (h : ListsParent records child parent) : child ∈ keysOf records := by
  obtain ⟨r, hr, s, hs, key, -⟩ := h
  exact VtableCloud.mem_keysOf.mpr ⟨r, hr, s, hs, key⟩

theorem Lineage.mem_keysOf {child ancestor : SubVtableKey} (path : Lineage records child ancestor)
    (known : ancestor ∈ keysOf records) : child ∈ keysOf records := by
  rcases path.cases_head with rfl | ⟨parent, listed, -⟩
  · exact known
  · exact listed.mem_keysOf

theorem BelowCycle.mem_keysOf {key : SubVtableKey} (h : BelowCycle records key) :
    key ∈ keysOf records := by
  obtain ⟨above, path, cycle⟩ := h
  obtain ⟨parent, listed, -⟩ := Relation.TransGen.head'_iff.mp cycle
  exact path.mem_keysOf listed.mem_keysOf

/-- Only a primary sub-vtable may have no parent. -/
theorem RootKey.primary (wellFormed : ∀ r ∈ records, r.WellFormed) {key : SubVtableKey}
    (root : RootKey records key) : key = .primary key.className := by
  obtain ⟨known, none⟩ := root
  obtain ⟨r, hr, s, hs, rfl⟩ := VtableCloud.mem_keysOf.mp known
  rcases Nat.eq_zero_or_pos s.order with first | later
  · rw [first]
    rfl
  · obtain ⟨parent, listed⟩ :=
      List.exists_mem_of_ne_nil _ ((wellFormed r hr).rooted s hs later)
    exact absurd ⟨r, hr, s, hs, rfl, listed⟩ (none parent)

section Order

variable {others : List ClassRecord} (perm : others.Perm records)
include perm

theorem listsParent_perm : ListsParent others = ListsParent records := by
  funext child parent
  simp only [ListsParent, perm.mem_iff]

theorem lineage_perm : Lineage others = Lineage records := by
  rw [Lineage, Lineage, listsParent_perm perm]

theorem mem_keysOf_perm {key : SubVtableKey} : key ∈ keysOf others ↔ key ∈ keysOf records := by
  simp only [mem_keysOf, perm.mem_iff]

theorem rootKey_perm : RootKey others = RootKey records := by
  funext key
  simp only [RootKey, mem_keysOf_perm perm, listsParent_perm perm]

end Order

theorem nodup_keysOf (collected : Collected records) : (keysOf records).Nodup := by
  rw [List.nodup_iff_pairwise_ne]
  apply (sorted_keysOf collected).imp
  rintro key _ lt rfl
  exact SubVtableKey.lt_irrefl key lt

theorem place_of_listsParent {child parent : SubVtableKey} (h : ListsParent records child parent) :
    ∃ (i : Nat) (r : ClassRecord) (s : SubVtable), (subVtablesOf records)[i]? = some (r, s) ∧
      (keysOf records)[i]? = some child ∧ child = r.key s.order ∧ parent ∈ s.parents := by
  obtain ⟨r, hr, s, hs, key, listed⟩ := h
  obtain ⟨i, hi⟩ := List.mem_iff_getElem?.mp (mem_subVtablesOf.mpr ⟨hr, hs⟩)
  refine ⟨i, r, s, hi, ?_, key, listed⟩
  rw [keysOf, List.getElem?_map, hi, key]
  rfl

/-! ## Rows -/

section Rows

variable {rows : List (List NodeId)} (linked : parentRows records = .ok rows)
include linked

theorem listsParent_of_mem_succ {i p : NodeId} (hp : p ∈ (Digraph.mk rows).succ i) :
    ∃ child parent, (keysOf records)[i]? = some child ∧ (keysOf records)[p]? = some parent ∧
      ListsParent records child parent := by
  have inside : i < rows.length := Digraph.lt_size_of_mem_succ hp
  rw [length_parentRows linked] at inside
  have here := List.getElem?_eq_getElem inside
  generalize (subVtablesOf records)[i] = own at here
  obtain ⟨r, s⟩ := own
  obtain ⟨row, hrow, ok⟩ := parentRow_of_ok linked here
  have member : p ∈ row := by simpa [Digraph.succ, hrow] using hp
  obtain ⟨parent, listed, found⟩ := mapM_ok_mem ok member
  obtain ⟨lt, eq, -⟩ := List.idxOf?_eq_some_iff.mp (parentId_ok.mp found)
  obtain ⟨hr, hs⟩ := mem_subVtablesOf.mp (List.mem_of_getElem? here)
  refine ⟨r.key s.order, parent, ?_, ?_, r, hr, s, hs, rfl, listed⟩
  · rw [keysOf, List.getElem?_map, here]
    rfl
  · rw [List.getElem?_eq_getElem lt, eq]

theorem mem_succ_of_listsParent (collected : Collected records) {i : NodeId}
    {child parent : SubVtableKey} (hi : (keysOf records)[i]? = some child)
    (listed : ListsParent records child parent) :
    ∃ p, (keysOf records)[p]? = some parent ∧ p ∈ (Digraph.mk rows).succ i := by
  obtain ⟨j, r, s, hj, key, -, hp⟩ := place_of_listsParent listed
  obtain rfl := place_unique (nodup_keysOf collected) key hi
  obtain ⟨row, hrow, ok⟩ := parentRow_of_ok linked hj
  obtain ⟨k, hk⟩ := List.mem_iff_getElem?.mp hp
  obtain ⟨p, hp, found⟩ := (mapM_ok ok).2 k parent hk
  obtain ⟨lt, eq, -⟩ := List.idxOf?_eq_some_iff.mp (parentId_ok.mp found)
  refine ⟨p, ?_, ?_⟩
  · rw [List.getElem?_eq_getElem lt, eq]
  · simpa [Digraph.succ, hrow] using List.mem_of_getElem? hp

/-- Going up between rows is going up by key. -/
theorem lineage_of_reaches {i j : NodeId} (path : (Digraph.mk rows).Reaches i j) :
    ∀ {child : SubVtableKey}, (keysOf records)[i]? = some child →
      ∃ ancestor, (keysOf records)[j]? = some ancestor ∧ Lineage records child ancestor := by
  induction path with
  | refl => exact fun hi => ⟨_, hi, .refl⟩
  | step edge _ ih =>
    intro child hi
    obtain ⟨own, parent, hown, hparent, listed⟩ := listsParent_of_mem_succ linked edge
    obtain rfl := Option.some.inj (hi.symm.trans hown)
    obtain ⟨ancestor, hj, path⟩ := ih hparent
    exact ⟨ancestor, hj, .head listed path⟩

/-- Going up by key is going up between rows. -/
theorem reaches_of_lineage (collected : Collected records) {i : NodeId}
    {child ancestor : SubVtableKey} (hi : (keysOf records)[i]? = some child)
    (path : Lineage records child ancestor) :
    ∃ j, (keysOf records)[j]? = some ancestor ∧ (Digraph.mk rows).Reaches i j := by
  induction path with
  | refl => exact ⟨i, hi, .refl i⟩
  | tail _ listed ih =>
    obtain ⟨j, hj, path⟩ := ih
    obtain ⟨p, hp, edge⟩ := mem_succ_of_listsParent linked collected hj listed
    exact ⟨p, hp, path.trans (.edge edge)⟩

/-- A node that comes after itself is a key above itself. -/
theorem transGen_of_reachesStrictly {i : NodeId} (cycle : (Digraph.mk rows).ReachesStrictly i i) :
    ∃ key, (keysOf records)[i]? = some key ∧ Relation.TransGen (ListsParent records) key key := by
  obtain ⟨p, edge, path⟩ := cycle
  obtain ⟨child, parent, hi, hp, listed⟩ := listsParent_of_mem_succ linked edge
  obtain ⟨ancestor, hi', path⟩ := lineage_of_reaches linked path hp
  obtain rfl := Option.some.inj (hi.symm.trans hi')
  exact ⟨child, hi, .head' listed path⟩

/-- A key above itself is a node that comes after itself. -/
theorem reachesStrictly_of_transGen (collected : Collected records) {i : NodeId}
    {key : SubVtableKey} (hi : (keysOf records)[i]? = some key)
    (cycle : Relation.TransGen (ListsParent records) key key) :
    (Digraph.mk rows).ReachesStrictly i i := by
  obtain ⟨parent, listed, path⟩ := Relation.TransGen.head'_iff.mp cycle
  obtain ⟨p, hp, edge⟩ := mem_succ_of_listsParent linked collected hi listed
  obtain ⟨j, hj, back⟩ := reaches_of_lineage linked collected hp path
  obtain rfl := place_unique (nodup_keysOf collected) hj hi
  exact ⟨p, edge, back⟩

/-- No node comes after itself just if no key is above itself. -/
theorem acyclic_iff_not_transGen (collected : Collected records) : (Digraph.mk rows).Acyclic ↔
    ∀ key, ¬ Relation.TransGen (ListsParent records) key key := by
  constructor
  · intro acyclic key cycle
    obtain ⟨parent, listed, -⟩ := Relation.TransGen.head'_iff.mp cycle
    obtain ⟨i, hi⟩ := List.mem_iff_getElem?.mp listed.mem_keysOf
    exact acyclic i (reachesStrictly_of_transGen linked collected hi cycle)
  · intro free i cycle
    obtain ⟨key, -, cycle⟩ := transGen_of_reachesStrictly linked cycle
    exact free key cycle

/-- A cycle is reached from a node just if it is reached from its key. -/
theorem leadsIntoCycle_iff (collected : Collected records) {i : NodeId} {key : SubVtableKey}
    (hi : (keysOf records)[i]? = some key) :
    (Digraph.mk rows).LeadsIntoCycle i ↔ BelowCycle records key := by
  constructor
  · rintro ⟨j, path, cycle⟩
    obtain ⟨above, hj, lineage⟩ := lineage_of_reaches linked path hi
    obtain ⟨own, hj', cycle⟩ := transGen_of_reachesStrictly linked cycle
    obtain rfl := Option.some.inj (hj.symm.trans hj')
    exact ⟨above, lineage, cycle⟩
  · rintro ⟨above, lineage, cycle⟩
    obtain ⟨j, hj, path⟩ := reaches_of_lineage linked collected hi lineage
    exact ⟨j, path, reachesStrictly_of_transGen linked collected hj cycle⟩

/-- A node without parents has the key of a sub-vtable without parents. -/
theorem rootKey_iff (collected : Collected records) {i : NodeId} {key : SubVtableKey}
    (hi : (keysOf records)[i]? = some key) :
    RootKey records key ↔ (Digraph.mk rows).succ i = [] := by
  rw [List.eq_nil_iff_forall_not_mem]
  constructor
  · intro root p hp
    obtain ⟨own, parent, hown, -, listed⟩ := listsParent_of_mem_succ linked hp
    obtain rfl := Option.some.inj (hi.symm.trans hown)
    exact root.2 parent listed
  · intro none
    refine ⟨List.mem_of_getElem? hi, fun parent listed => ?_⟩
    obtain ⟨p, -, edge⟩ := mem_succ_of_listsParent linked collected hi listed
    exact none p edge

/-- Where all parents have rows, they are keys of the records. -/
theorem parentRows_closed {child parent : SubVtableKey}
    (listed : ListsParent records child parent) : parent ∈ keysOf records := by
  obtain ⟨i, r, s, hi, -, -, hp⟩ := place_of_listsParent listed
  obtain ⟨row, -, ok⟩ := parentRow_of_ok linked hi
  obtain ⟨k, hk⟩ := List.mem_iff_getElem?.mp hp
  obtain ⟨p, -, found⟩ := (mapM_ok ok).2 k parent hk
  obtain ⟨lt, eq, -⟩ := List.idxOf?_eq_some_iff.mp (parentId_ok.mp found)
  exact eq ▸ List.getElem_mem lt

end Rows

/-- Rows are refused for a listed parent that no record describes. -/
theorem parentRows_error {e : HierarchyError} (refused : parentRows records = .error e) :
    ∃ child parent, ListsParent records child parent ∧ parent ∉ keysOf records ∧
      e = .undefinedParent parent child := by
  obtain ⟨⟨r, s⟩, mem, row⟩ := mapM_error refused
  obtain ⟨hr, hs⟩ := mem_subVtablesOf.mp mem
  obtain ⟨parent, listed, missing⟩ := mapM_error row
  unfold parentId at missing
  split at missing
  · cases missing
  · rename_i unknown
    refine ⟨r.key s.order, parent, ⟨r, hr, s, hs, rfl, listed⟩, ?_, (Except.error.inj missing).symm⟩
    exact List.idxOf?_eq_none_iff.mp unknown

end VtableCloud
