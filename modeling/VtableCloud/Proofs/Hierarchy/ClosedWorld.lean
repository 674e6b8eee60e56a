import VtableCloud.Proofs.Digraph.Release
import VtableCloud.Proofs.Hierarchy.Lineage
import VtableCloud.Proofs.Hierarchy.Monotone

/-!
# Which records describe a hierarchy

Four conditions on records, none of which speaks of numbered nodes or of an order: no record
has a defect (`Faultless`), all parents are described (`Closed`), no sub-vtable is above
itself (`Cyclefree`), and none has two roots above it (`OneRooted`).

* `topologicalOrder_ok_iff`, `least_of_order_error`: nodes can be put in order just if there is no
  cycle;
* `oneRooted_of_clouds`, `mixed_of_clouds_error`: clouds can be assigned just if there is one root
  above each node;
* `Verdict`, `verdict_ofRecords`: how building a hierarchy ends and what this says of the records;
* `ofRecords_closedWorld`: records with different names are accepted just if they meet all four
  conditions, and else the error is about the first that they do not meet.
-/

namespace VtableCloud

/-- No record has a defect. -/
def Faultless (records : List ClassRecord) : Prop := ∀ r ∈ records, r.defect? = none

/-- Each listed parent is a sub-vtable of some record. -/
def Closed (records : List ClassRecord) : Prop :=
  ∀ child parent, ListsParent records child parent → parent ∈ keysOf records

/-- No sub-vtable is above itself. -/
def Cyclefree (records : List ClassRecord) : Prop :=
  ∀ key, ¬ Relation.TransGen (ListsParent records) key key

/-- No sub-vtable has two sub-vtables without parents above it. -/
def OneRooted (records : List ClassRecord) : Prop :=
  ∀ key first second, Lineage records key first → RootKey records first →
    Lineage records key second → RootKey records second → first = second

namespace Hierarchy

variable {records : List ClassRecord} {rows : List (List NodeId)} {order owners : List NodeId}
  {e : HierarchyError}

/-- The key of the node at a place. -/
theorem key_nodesOf {parents : Digraph} {i : NodeId} {key : SubVtableKey}
    (hi : (keysOf records)[i]? = some key) :
    ((nodesOf records parents).getD i default).key = key := by
  have keys : (nodesOf records parents).map (·.key) = keysOf records := map_key_nodesOf
  rw [← keys, List.getElem?_map, Option.map_eq_some_iff] at hi
  obtain ⟨n, hn, rfl⟩ := hi
  rw [List.getD_eq_getElem?_getD, hn, Option.getD_some]

theorem topologicalOrder_error {nodes : List Node} (h : topologicalOrder nodes = .error e) :
    ∃ stuck, (Digraph.mk (nodes.map (·.parents))).parentsFirst = .error stuck ∧
      e = .cycle (nodes.getD stuck default).key := by
  unfold topologicalOrder at h
  split at h
  · cases h
  · rename_i stuck left
    exact ⟨stuck, left, (Except.error.inj h).symm⟩

section Linked

variable (linked : parentRows records = .ok rows)
include linked

theorem parentsIn_nodesOf (id : NodeId) :
    parentsIn (nodesOf records ⟨rows⟩) id = (Digraph.mk rows).succ id := by
  rw [← succ_parentsIn, parentGraph_nodesOf (length_parentRows linked)]

/-- All nodes stand in the order, parents first. -/
theorem parentsFirst_of_order (ordered : topologicalOrder (nodesOf records ⟨rows⟩) = .ok order) :
    (Digraph.mk rows).ParentsFirst order ∧ ∀ x < (Digraph.mk rows).size, x ∈ order := by
  have ok := topologicalOrder_ok ordered
  rw [parentGraph_nodesOf (length_parentRows linked)] at ok
  exact Digraph.parentsFirst_ok ok

/-- Nodes can be put in order just if no key is above itself. -/
theorem topologicalOrder_ok_iff (collected : Collected records) :
    topologicalOrder (nodesOf records ⟨rows⟩) = .ok order ↔
      Cyclefree records ∧ order = (Digraph.mk rows).released := by
  have graph := parentGraph_nodesOf (length_parentRows linked)
  rw [Cyclefree, ← acyclic_iff_not_transGen linked collected,
    ← Digraph.parentsFirst_eq_ok_iff (parent_lt_size linked)]
  constructor
  · intro ordered
    rw [← graph]
    exact topologicalOrder_ok ordered
  · intro ok
    rw [topologicalOrder, graph, ok]

/-- Otherwise the least key with a cycle above it is named. -/
theorem least_of_order_error (collected : Collected records)
    (h : topologicalOrder (nodesOf records ⟨rows⟩) = .error e) :
    ∃ key, e = .cycle key ∧ BelowCycle records key ∧
      ∀ other, BelowCycle records other → key = other ∨ key < other := by
  obtain ⟨stuck, left, rfl⟩ := topologicalOrder_error h
  rw [parentGraph_nodesOf (length_parentRows linked)] at left
  obtain ⟨above, least⟩ := (Digraph.parentsFirst_eq_error_iff (parent_lt_size linked)).mp left
  have inside : stuck < (keysOf records).length := by
    rw [length_keysOf, ← length_parentRows linked]
    exact above.lt_size
  have named := List.getElem?_eq_getElem inside
  refine ⟨_, by rw [key_nodesOf named], (leadsIntoCycle_iff linked collected named).mp above, ?_⟩
  intro other below
  obtain ⟨i, hi⟩ := List.mem_iff_getElem?.mp below.mem_keysOf
  have later := least i ((leadsIntoCycle_iff linked collected hi).mpr below)
  rcases SubVtableKey.lt_trichotomy (keysOf records)[stuck] other with lt | eq | gt
  · exact Or.inr lt
  · exact Or.inl eq
  · exact absurd (place_lt_of_key_lt collected hi named gt) (Nat.not_lt.mpr later)

/-- Where all nodes were assigned to clouds, no key has two roots above it. -/
theorem oneRooted_of_clouds (collected : Collected records)
    (ordered : topologicalOrder (nodesOf records ⟨rows⟩) = .ok order)
    (assigned : assignClouds (nodesOf records ⟨rows⟩) order = .ok owners) : OneRooted records := by
  have graph := parentGraph_nodesOf (length_parentRows linked)
  obtain ⟨first, all⟩ := parentsFirst_of_order linked ordered
  have inv := assigned_of_assignClouds (graph.symm ▸ first) assigned
  have taken : ∀ x < (nodesOf records ⟨rows⟩).length, x ∈ order := by
    intro x lt
    rw [length_nodesOf, ← length_parentRows linked] at lt
    exact all x lt
  intro key a b pathA rootA pathB rootB
  obtain ⟨i, hi⟩ := List.mem_iff_getElem?.mp (pathA.mem_keysOf rootA.1)
  -- Both roots are the root that the node of the key was assigned.
  have owner {root : SubVtableKey} (path : Lineage records key root)
      (parentless : RootKey records root) :
      (keysOf records)[owners.getD i i]? = some root := by
    obtain ⟨j, hj, path⟩ := reaches_of_lineage linked collected hi path
    have none := (rootKey_iff linked collected hj).mp parentless
    have lt := (List.getElem?_eq_some_iff.mp hj).1
    rw [length_keysOf] at lt
    rw [← inv.root_of_reaches taken (graph.symm ▸ path),
      inv.parentless j (taken j (length_nodesOf ▸ lt)) ((parentsIn_nodesOf linked j).trans none),
      hj]
  exact Option.some.inj ((owner pathA rootA).symm.trans (owner pathB rootB))

/-- A node that was refused has two roots above it, and these are named. -/
theorem mixed_of_clouds_error (collected : Collected records)
    (ordered : topologicalOrder (nodesOf records ⟨rows⟩) = .ok order)
    (h : assignClouds (nodesOf records ⟨rows⟩) order = .error e) :
    ∃ key first second, e = .mixedParentClouds key first second ∧ first ≠ second ∧
      Lineage records key (.primary first) ∧ RootKey records (.primary first) ∧
      Lineage records key (.primary second) ∧ RootKey records (.primary second) := by
  have graph := parentGraph_nodesOf (length_parentRows linked)
  obtain ⟨first, all⟩ := parentsFirst_of_order linked ordered
  have founded : WellFounded fun p x => p ∈ parentsIn (nodesOf records ⟨rows⟩) x := by
    simpa only [parentsIn_nodesOf linked] using first.founded all
  obtain ⟨id, inside, a, b, other, noneA, noneB, pathA, pathB, rfl⟩ :=
    assignClouds_error (graph.symm ▸ first) founded h
  rw [graph] at pathA pathB
  rw [parentsIn_nodesOf linked] at noneA noneB
  rw [length_nodesOf, ← length_keysOf] at inside
  have named := List.getElem?_eq_getElem inside
  obtain ⟨root, rootA, lineageA⟩ := lineage_of_reaches linked pathA named
  obtain ⟨root', rootB, lineageB⟩ := lineage_of_reaches linked pathB named
  have parentlessA := (rootKey_iff linked collected rootA).mpr noneA
  have parentlessB := (rootKey_iff linked collected rootB).mpr noneB
  have primaryA := parentlessA.primary collected.wellFormed
  have primaryB := parentlessB.primary collected.wellFormed
  rw [key_nodesOf named, key_nodesOf rootA, key_nodesOf rootB]
  refine ⟨_, root.className, root'.className, rfl, ?_, primaryA ▸ lineageA, primaryA ▸ parentlessA,
    primaryB ▸ lineageB, primaryB ▸ parentlessB⟩
  intro same
  refine other (place_unique (nodup_keysOf collected) rootA ?_)
  rw [rootB, primaryA, primaryB, same]

end Linked

/-- How building a hierarchy from records ends, and what this says of the records. -/
inductive Verdict (records : List ClassRecord) : Except HierarchyError Hierarchy → Prop
  | accepted {h : Hierarchy} (faultless : Faultless records) (closed : Closed records)
      (cyclefree : Cyclefree records) (oneRooted : OneRooted records) : Verdict records (.ok h)
  | malformed {before after : List ClassRecord} {r : ClassRecord} {defect : RecordDefect}
      (split : records = before ++ r :: after) (faultless : Faultless before)
      (found : r.defect? = some defect) : Verdict records (.error (.malformedRecord r.name defect))
  | undefinedParent {child parent : SubVtableKey} (faultless : Faultless records)
      (listed : ListsParent records child parent) (missing : parent ∉ keysOf records) :
      Verdict records (.error (.undefinedParent parent child))
  | cycle {key above : SubVtableKey} (faultless : Faultless records) (closed : Closed records)
      (path : Lineage records key above)
      (cycle : Relation.TransGen (ListsParent records) above above) :
      Verdict records (.error (.cycle key))
  | mixed {key : SubVtableKey} {first second : String} (faultless : Faultless records)
      (closed : Closed records) (cyclefree : Cyclefree records) (other : first ≠ second)
      (path : Lineage records key (.primary first)) (root : RootKey records (.primary first))
      (path' : Lineage records key (.primary second)) (root' : RootKey records (.primary second)) :
      Verdict records (.error (.mixedParentClouds key first second))

/-- The first record with a defect is named by the error. -/
theorem verdict_of_defect (distinct : (records.map (·.name)).Nodup)
    (faulty : ¬ Faultless records) : Verdict records (ofRecords records) := by
  cases found : records.find? fun r => r.defect?.isSome with
  | none =>
    refine absurd (fun r hr => ?_) faulty
    simpa using List.find?_eq_none.mp found r hr
  | some r =>
    obtain ⟨some, before, after, split, sound⟩ := List.find?_eq_some_iff_append.mp found
    obtain ⟨defect, found⟩ := Option.isSome_iff_exists.mp some
    have faultless : Faultless before := by simpa [Faultless] using sound
    rw [split] at distinct
    have refused := collectRecords_malformed distinct faultless found
    have failed : ofRecords records = .error (.malformedRecord r.name defect) := by
      rw [ofRecords, split, refused]
      rfl
    rw [failed]
    exact .malformed split faultless found

theorem verdict_ofRecords (distinct : (records.map (·.name)).Nodup) :
    Verdict records (ofRecords records) := by
  by_cases faultless : Faultless records
  · obtain ⟨out, taken, perm⟩ := collectRecords_distinct distinct faultless
    have collected := collected_of_collectRecords taken
    cases linked : parentRows out with
    | error e =>
      obtain ⟨child, parent, listed, missing, rfl⟩ := parentRows_error linked
      have failed : ofRecords records = .error (.undefinedParent parent child) := by
        simp only [ofRecords, taken, linkRecords, linked, bind, Except.bind]
      rw [failed]
      rw [listsParent_perm perm] at listed
      rw [mem_keysOf_perm perm] at missing
      exact .undefinedParent faultless listed missing
    | ok rows =>
      have closed : Closed records := by
        intro child parent listed
        rw [← listsParent_perm perm] at listed
        exact (mem_keysOf_perm perm).mp (parentRows_closed linked listed)
      cases ordered : topologicalOrder (nodesOf out ⟨rows⟩) with
      | error e =>
        obtain ⟨key, rfl, ⟨above, path, cycle⟩, -⟩ := least_of_order_error linked collected ordered
        have failed : ofRecords records = .error (.cycle key) := by
          simp only [ofRecords, taken, linkRecords, linked, ordered, bind, Except.bind, pure,
            Except.pure]
        rw [failed]
        rw [lineage_perm perm] at path
        rw [listsParent_perm perm] at cycle
        exact .cycle faultless closed path cycle
      | ok order =>
        have cyclefree : Cyclefree records := by
          intro key
          rw [← listsParent_perm perm]
          exact ((topologicalOrder_ok_iff linked collected).mp ordered).1 key
        cases assigned : assignClouds (nodesOf out ⟨rows⟩) order with
        | error e =>
          obtain ⟨key, first, second, rfl, other, path, root, path', root'⟩ :=
            mixed_of_clouds_error linked collected ordered assigned
          have failed : ofRecords records = .error (.mixedParentClouds key first second) := by
            simp only [ofRecords, taken, linkRecords, linked, ordered, assigned, bind, Except.bind,
              pure, Except.pure]
          rw [failed]
          rw [lineage_perm perm] at path path'
          rw [rootKey_perm perm] at root root'
          exact .mixed faultless closed cyclefree other path root path' root'
        | ok owners =>
          have built : ofRecords records = .ok ⟨out, nodesOf out ⟨rows⟩, owners⟩ := by
            simp only [ofRecords, taken, linkRecords, linked, ordered, assigned, bind, Except.bind,
              pure, Except.pure]
          rw [built]
          refine .accepted faultless closed cyclefree ?_
          have oneRooted := oneRooted_of_clouds linked collected ordered assigned
          rwa [OneRooted, lineage_perm perm, rootKey_perm perm] at oneRooted
  · exact verdict_of_defect distinct faultless

end Hierarchy

/-- Records with different names are accepted just if none has a defect, all parents are
described, there is no cycle, and no sub-vtable has two roots above it. The error is about the
first of these that fails, and its keys show that it does. -/
theorem ofRecords_closedWorld {records : List ClassRecord}
    (distinct : (records.map (·.name)).Nodup) :
    ((∃ h, Hierarchy.ofRecords records = .ok h) ↔
      Faultless records ∧ Closed records ∧ Cyclefree records ∧ OneRooted records) ∧
    (¬ Faultless records → ∃ before r after defect, records = before ++ r :: after ∧
      Faultless before ∧ r.defect? = some defect ∧
      Hierarchy.ofRecords records = .error (.malformedRecord r.name defect)) ∧
    (Faultless records → ¬ Closed records → ∃ child parent, ListsParent records child parent ∧
      parent ∉ keysOf records ∧
      Hierarchy.ofRecords records = .error (.undefinedParent parent child)) ∧
    (Faultless records → Closed records → ¬ Cyclefree records → ∃ key above,
      Lineage records key above ∧ Relation.TransGen (ListsParent records) above above ∧
      Hierarchy.ofRecords records = .error (.cycle key)) ∧
    (Faultless records → Closed records → Cyclefree records → ¬ OneRooted records →
      ∃ key first second, first ≠ second ∧
        Lineage records key (.primary first) ∧ RootKey records (.primary first) ∧
        Lineage records key (.primary second) ∧ RootKey records (.primary second) ∧
        Hierarchy.ofRecords records = .error (.mixedParentClouds key first second)) := by
  have verdict := Hierarchy.verdict_ofRecords distinct
  generalize Hierarchy.ofRecords records = result at verdict ⊢
  cases verdict with
  | accepted faultless closed cyclefree oneRooted =>
    exact ⟨⟨fun _ => ⟨faultless, closed, cyclefree, oneRooted⟩, fun _ => ⟨_, rfl⟩⟩,
      fun faulty => absurd faultless faulty, fun _ open' => absurd closed open',
      fun _ _ cyclic => absurd cyclefree cyclic, fun _ _ _ mixed => absurd oneRooted mixed⟩
  | @malformed before after r defect split faultless found =>
    have faulty : ¬ Faultless records := by
      intro all
      have none := all r (by simp [split])
      rw [found] at none
      cases none
    exact ⟨⟨fun ⟨_, ok⟩ => (nomatch ok), fun all => absurd all.1 faulty⟩,
      fun _ => ⟨before, r, after, defect, split, faultless, found, rfl⟩,
      fun all => absurd all faulty, fun all => absurd all faulty, fun all => absurd all faulty⟩
  | @undefinedParent child parent faultless listed missing =>
    have missed : ¬ Closed records := fun closed => missing (closed child parent listed)
    exact ⟨⟨fun ⟨_, ok⟩ => (nomatch ok), fun all => absurd all.2.1 missed⟩,
      fun faulty => absurd faultless faulty, fun _ _ => ⟨child, parent, listed, missing, rfl⟩,
      fun _ closed => absurd closed missed, fun _ closed => absurd closed missed⟩
  | @cycle key above faultless closed path cycle =>
    have cyclic : ¬ Cyclefree records := fun free => free above cycle
    exact ⟨⟨fun ⟨_, ok⟩ => (nomatch ok), fun all => absurd all.2.2.1 cyclic⟩,
      fun faulty => absurd faultless faulty, fun _ missed => absurd closed missed,
      fun _ _ _ => ⟨key, above, path, cycle, rfl⟩, fun _ _ free => absurd free cyclic⟩
  | @mixed key first second faultless closed cyclefree other path root path' root' =>
    have several : ¬ OneRooted records := by
      intro one
      exact other (congrArg SubVtableKey.className (one key _ _ path root path' root'))
    exact ⟨⟨fun ⟨_, ok⟩ => (nomatch ok), fun all => absurd all.2.2.2 several⟩,
      fun faulty => absurd faultless faulty, fun _ missed => absurd closed missed,
      fun _ _ cyclic => absurd cyclefree cyclic,
      fun _ _ _ _ => ⟨key, first, second, other, path, root, path', root', rfl⟩⟩

/-- The records of the diamond meet all four conditions. -/
theorem diamond_closedWorld : Faultless Diamond.records ∧ Closed Diamond.records ∧
    Cyclefree Diamond.records ∧ OneRooted Diamond.records :=
  (ofRecords_closedWorld (by decide)).1.mp ⟨Diamond.hierarchy, Diamond.ofRecords_records⟩

end VtableCloud
