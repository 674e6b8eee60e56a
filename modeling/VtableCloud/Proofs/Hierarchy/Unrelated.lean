import Mathlib.Data.List.Sort
import VtableCloud.Proofs.Hierarchy.Consistency
import VtableCloud.Proofs.Hierarchy.Renumbering
import VtableCloud.Proofs.Hierarchy.Repetition

/-!
# Unrelated classes

Records of other classes are added to some records.

* `Hierarchy.Enlarges`: the hierarchies before and after;
* `Enlarges.mem_records_iff`, `Enlarges.listsParent_iff`: what the larger one has of the classes
  that were there before;
* `renumbering`: the number that a node has there;
* `Enlarges.rootId_renumbering`: root classes stay root classes;
* `Enlarges.embeds`: a cloud in which no class was added is found there.
-/

namespace VtableCloud

/-- A class is described by one of some records. -/
def Describes (records : List ClassRecord) (name : String) : Prop := ∃ r ∈ records, r.name = name

namespace Hierarchy

/-- The number that a node has in a hierarchy with more classes. -/
def renumbering (h h' : Hierarchy) (id : NodeId) : NodeId :=
  if id < h.size then (h'.find? (h.key id)).getD 0 else h'.size + id

/-- What a node has of its record. -/
theorem WellFormed.outline_of_node {h : Hierarchy} (wf : h.WellFormed) {id : NodeId}
    (lt : id < h.size) : ∃ r ∈ h.records, ∃ s ∈ r.subVtables, (h.node id).outline =
      ⟨r.key s.order, s.start, s.last, s.addressPoint, r.isDefined, [], []⟩ := by
  obtain ⟨r, hr, s, hs, key, start, last, point, isDefined, -⟩ := wf.described _ (node_mem lt)
  exact ⟨r, hr, s, hs, by rw [Node.outline, key, start, last, point, isDefined]⟩

/-- Hierarchies of some records, and of these together with records of other classes. -/
structure Enlarges (records others : List ClassRecord) (h h' : Hierarchy) : Prop where
  ingested : ofRecords records = .ok h
  ingested' : ofRecords (records ++ others) = .ok h'
  unrelated : ∀ r ∈ records, ¬ Describes others r.name

namespace Enlarges

variable {records others : List ClassRecord} {h h' : Hierarchy}

theorem wf (e : Enlarges records others h h') : h.WellFormed := wellFormed_of_ofRecords e.ingested

theorem wf' (e : Enlarges records others h h') : h'.WellFormed :=
  wellFormed_of_ofRecords e.ingested'

/-! ## Records -/

/-- The records of the classes that were there before are kept, and no other for these. -/
theorem mem_records_iff (e : Enlarges records others h h') {r : ClassRecord} :
    r ∈ h.records ↔ r ∈ h'.records ∧ ¬ Describes others r.name := by
  obtain ⟨-, -, taken, -⟩ := ofRecords_ok e.ingested
  obtain ⟨-, -, taken', -⟩ := ofRecords_ok e.ingested'
  rw [(gathered_of_collectRecords taken).kept, (gathered_of_collectRecords taken').kept, Kept, Kept]
  simp only [List.mem_append]
  constructor
  · rintro ⟨hr, none⟩
    refine ⟨⟨Or.inl hr, fun missing d hd name => ?_⟩, e.unrelated r hr⟩
    rcases hd with hd | hd
    · exact none missing d hd name
    · exact absurd ⟨d, hd, name⟩ (e.unrelated r hr)
  · rintro ⟨⟨hr | hr, none⟩, own⟩
    · exact ⟨hr, fun missing d hd name => none missing d (Or.inl hd) name⟩
    · exact absurd ⟨r, hr, rfl⟩ own

theorem not_describes_key (e : Enlarges records others h h') {id : NodeId} (lt : id < h.size) :
    ¬ Describes others (h.key id).className := by
  obtain ⟨r, hr, s, hs, key, -⟩ := e.wf.subVtable_of_node lt
  rw [key]
  exact (e.mem_records_iff.mp hr).2

/-- The parents of these classes are the same. -/
theorem listsParent_iff (e : Enlarges records others h h') {child parent : SubVtableKey}
    (own : ¬ Describes others child.className) :
    ListsParent h'.records child parent ↔ ListsParent h.records child parent := by
  constructor
  · rintro ⟨r, hr, s, hs, rfl, listed⟩
    exact ⟨r, e.mem_records_iff.mpr ⟨hr, own⟩, s, hs, rfl, listed⟩
  · rintro ⟨r, hr, rest⟩
    exact ⟨r, (e.mem_records_iff.mp hr).1, rest⟩

/-! ## Nodes -/

/-- A node is found by its key, and is the same apart from its links. -/
theorem renumbering_spec (e : Enlarges records others h h') {id : NodeId} (lt : id < h.size) :
    renumbering h h' id < h'.size ∧ h'.key (renumbering h h' id) = h.key id ∧
      (h'.node (renumbering h h' id)).outline = (h.node id).outline := by
  obtain ⟨r, hr, s, hs, outline⟩ := e.wf.outline_of_node lt
  have hr := (e.mem_records_iff.mp hr).1
  have key : h.key id = r.key s.order := congrArg Node.key outline
  obtain ⟨i, inside, keyAt⟩ := exists_node e.ingested' (mem_keysOf.mpr ⟨r, hr, s, hs, key⟩)
  have number : renumbering h h' id = i := by
    rw [renumbering, if_pos lt, e.wf'.find?_eq_some.mpr ⟨inside, keyAt⟩]
    rfl
  obtain ⟨r', hr', s', hs', outline'⟩ := e.wf'.outline_of_node inside
  have key' : h'.key i = r'.key s'.order := congrArg Node.key outline'
  obtain ⟨rfl, rfl⟩ := e.wf'.subVtable_unique hr hs hr' hs' (by rw [← key, ← keyAt, key'])
  rw [number]
  exact ⟨inside, keyAt, outline'.trans outline.symm⟩

/-- Nodes stay in order. -/
theorem strictMono_renumbering (e : Enlarges records others h h') :
    StrictMono (renumbering h h') := by
  intro a b before
  rcases Nat.lt_or_ge b h.size with lt | ge
  · have less := e.wf.key_lt_key before lt
    obtain ⟨insideA, keyA, -⟩ := e.renumbering_spec (Nat.lt_trans before lt)
    obtain ⟨-, keyB, -⟩ := e.renumbering_spec lt
    rw [← keyA, ← keyB] at less
    by_contra early
    rcases Nat.lt_or_eq_of_le (Nat.le_of_not_lt early) with lt' | same
    · exact SubVtableKey.lt_irrefl _ (SubVtableKey.lt_trans less (e.wf'.key_lt_key lt' insideA))
    · rw [same] at less
      exact SubVtableKey.lt_irrefl _ less
  · have large : renumbering h h' b = h'.size + b := if_neg (Nat.not_lt.mpr ge)
    rw [large]
    rcases Nat.lt_or_ge a h.size with lt | ge'
    · exact Nat.lt_of_lt_of_le (e.renumbering_spec lt).1 (Nat.le_add_right _ _)
    · rw [renumbering, if_neg (Nat.not_lt.mpr ge')]
      exact Nat.add_lt_add_left before _

/-! ## Inheritance -/

/-- The edges between nodes stay. -/
theorem mem_children_renumbering (e : Enlarges records others h h') {p c : NodeId}
    (hp : p < h.size) (hc : c < h.size) :
    renumbering h h' c ∈ h'.children (renumbering h h' p) ↔ c ∈ h.children p := by
  obtain ⟨insideP, keyP, -⟩ := e.renumbering_spec hp
  obtain ⟨insideC, keyC, -⟩ := e.renumbering_spec hc
  rw [e.wf'.mem_children, e.wf.mem_children, mem_parents_iff e.ingested' insideC,
    mem_parents_iff e.ingested hc, keyP, keyC, e.listsParent_iff (e.not_describes_key hc)]
  exact ⟨fun edge => ⟨hp, edge.2⟩, fun edge => ⟨insideP, edge.2⟩⟩

/-- So does inheritance. -/
theorem descends_renumbering (e : Enlarges records others h h') {a b : NodeId}
    (path : h.Descends a b) : h'.Descends (renumbering h h' a) (renumbering h h' b) := by
  induction path with
  | refl => exact .refl _
  | @step p c d edge _ ih =>
    rw [succ_childGraph] at edge
    have up := e.wf.mem_children.mp edge
    have there := (e.mem_children_renumbering (e.wf.parents_lt c p up)
      (lt_size_of_mem_parents up)).mpr edge
    exact (descends_of_mem_children there).trans ih

/-- A root class stays one, with its own cloud. -/
theorem rootId_renumbering (e : Enlarges records others h h') {name : String} {root : NodeId}
    (hr : name ∈ h.roots) (found : h.rootId name = .ok root) :
    h'.rootId name = .ok (renumbering h h' root) ∧
      h'.cloudRoot (renumbering h h' root) = renumbering h h' root := by
  obtain ⟨lt, primary⟩ := e.wf.rootId_ok found
  obtain ⟨inside, key, -⟩ := e.renumbering_spec lt
  have orphan : h'.parents (renumbering h h' root) = [] := by
    rw [List.eq_nil_iff_forall_not_mem]
    intro p hp
    have listed := ((mem_parents_iff e.ingested' inside).mp hp).2
    rw [key, e.listsParent_iff (e.not_describes_key lt)] at listed
    obtain ⟨r, hmem, s, hs, keyAt, -, -, -, -, none⟩ := e.wf.described _ (node_mem lt)
    rw [Hierarchy.key, keyAt, e.wf.listsParent_iff hmem hs, KeySet.mem_def,
      none ((e.wf.parentless_iff lt).mpr ⟨name, hr, found⟩)] at listed
    cases listed
  obtain ⟨id, lt', found', key', own⟩ :=
    e.wf'.rootId_of_mem (mem_roots.mpr ⟨_, inside, orphan, key.trans primary⟩)
  obtain rfl := e.wf'.key_inj lt' inside (key'.trans (key.trans primary).symm)
  exact ⟨found', own⟩

/-- A cloud in which no class was added is found as it was. -/
theorem embeds (e : Enlarges records others h h') {root : NodeId} (lt : root < h.size)
    (apart : ∀ id, h'.Descends (renumbering h h' root) id →
      ¬ Describes others (h'.key id).className) :
    Embeds (renumbering h h') h h' root := by
  have mono := e.strictMono_renumbering
  refine ⟨mono.injective, fun a path =>
    (e.renumbering_spec (e.wf.lt_size_of_descends path lt)).2.2, fun a path => ?_⟩
  have here := e.wf.lt_size_of_descends path lt
  obtain ⟨insideA, keyA, -⟩ := e.renumbering_spec here
  -- Both lists are in increasing order, so that it is enough that they have the same members.
  have sorted := List.pairwise_map.mpr ((e.wf.sorted_children a).imp fun before => mono before)
  refine (e.wf'.sorted_children _).eq_of_mem_iff sorted fun c => ?_
  rw [List.mem_map]
  constructor
  · intro edge
    have down := (e.descends_renumbering path).trans (descends_of_mem_children edge)
    have up := e.wf'.mem_children.mp edge
    have listed := ((mem_parents_iff e.ingested' (lt_size_of_mem_parents up)).mp up).2
    rw [keyA, e.listsParent_iff (apart c down)] at listed
    obtain ⟨b, lt, key⟩ := exists_node e.ingested listed.mem_keysOf
    obtain ⟨insideB, keyB, -⟩ := e.renumbering_spec lt
    obtain rfl := e.wf'.key_inj insideB (lt_size_of_mem_parents up) (keyB.trans key)
    exact ⟨b, (e.mem_children_renumbering here lt).mp edge, rfl⟩
  · rintro ⟨b, edge, rfl⟩
    have lt := lt_size_of_mem_parents (e.wf.mem_children.mp edge)
    exact (e.mem_children_renumbering here lt).mpr edge

end Enlarges

end Hierarchy

end VtableCloud
