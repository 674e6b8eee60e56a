import VtableCloud.Hierarchy.Query
import VtableCloud.Proofs.Hierarchy.Consistency
import VtableCloud.Proofs.Word

/-!
# Where a class lists a function

* `ClassRecord.FirstListing`: the listing of a function that counts, where a class has several;
* `WellFormed.functionSlot?_eq_some_iff`: a lookup finds this listing, and gives its distance from
  the address point as a signed word.
-/

namespace VtableCloud

namespace SubVtable

variable {s : SubVtable} {name : String} {f : FunctionEntry}

def Lists (s : SubVtable) (name : String) : Prop := ∃ f ∈ s.functions, f.name = name

/-- The first function of a name that a sub-vtable lists. -/
def ListsFirst (s : SubVtable) (name : String) (f : FunctionEntry) : Prop :=
  f.name = name ∧
    ∃ before after, s.functions = before ++ f :: after ∧ ∀ g ∈ before, g.name ≠ name

/-- The distance of a listed function from the address point. -/
def distance (s : SubVtable) (f : FunctionEntry) : Int :=
  (s.start + f.offset : Nat) - s.addressPoint

theorem ListsFirst.mem (first : s.ListsFirst name f) : f ∈ s.functions := by
  obtain ⟨-, before, after, split, -⟩ := first
  simp [split]

theorem functionOffset?_eq_some_iff {offset : Int} : s.functionOffset? name = some offset ↔
    ∃ f, s.ListsFirst name f ∧ signedWord (s.distance f) = offset := by
  unfold functionOffset?
  simp only [Option.map_eq_some_iff, List.find?_eq_some_iff_append, beq_iff_eq, ListsFirst,
    Bool.not_eq_true', beq_eq_false_iff_ne]
  rfl

theorem functionOffset?_eq_none_iff : s.functionOffset? name = none ↔ ¬ s.Lists name := by
  simp [functionOffset?, Lists]

end SubVtable

namespace ClassRecord

variable {r : ClassRecord} {name : String}

/-- Of the listings of a function in a class, the first in the sub-vtable of the lowest order
that has one. -/
structure FirstListing (r : ClassRecord) (name : String) (s : SubVtable) (f : FunctionEntry) :
    Prop where
  member : s ∈ r.subVtables
  first : s.ListsFirst name f
  lowest : ∀ other ∈ r.subVtables, other.Lists name → s.order ≤ other.order

/-- The slot of a function is one of the sub-vtable that lists it. -/
theorem WellFormed.slot_le_last (wf : r.WellFormed) {s : SubVtable} {f : FunctionEntry}
    (listing : r.FirstListing name s f) : s.start + f.offset ≤ s.last := by
  have pointed := wf.pointed s listing.member
  have within := wf.functions s listing.member f listing.first.mem
  rw [SubVtable.width] at within
  omega

end ClassRecord

namespace Hierarchy

variable {h : Hierarchy} {r : ClassRecord} {name : String}

namespace WellFormed

/-- A function is looked up where it is first listed. -/
theorem functionSlot?_eq_some_iff (wf : h.WellFormed) (hr : r ∈ h.records) {key : SubVtableKey}
    {offset : Int} : h.functionSlot? r.name name = some (key, offset) ↔
      ∃ s f, r.FirstListing name s f ∧ key = r.key s.order ∧
        offset = signedWord (s.distance f) := by
  have sorted := (wf.collected.wellFormed r hr).sorted_orders
  unfold functionSlot?
  simp only [wf.record?_of_mem hr, Option.bind_eq_bind, Option.bind_some,
    List.findSome?_eq_some_iff, Option.map_eq_some_iff, Option.map_eq_none_iff, Prod.mk.injEq,
    SubVtable.functionOffset?_eq_some_iff, SubVtable.functionOffset?_eq_none_iff]
  constructor
  · rintro ⟨before, s, after, split, ⟨offset, ⟨f, first, rfl⟩, rfl, rfl⟩, none⟩
    refine ⟨s, f, ⟨by simp [split], first, fun other member lists => ?_⟩, rfl, rfl⟩
    rw [split, List.mem_append, List.mem_cons] at member
    obtain earlier | rfl | later := member
    · exact absurd lists (none other earlier)
    · exact Nat.le_refl _
    · rw [split] at sorted
      have below := (List.pairwise_append.mp sorted).2.1
      exact Nat.le_of_lt ((List.pairwise_cons.mp below).1 other later)
  · rintro ⟨s, f, ⟨member, first, lowest⟩, rfl, rfl⟩
    obtain ⟨before, after, split⟩ := List.append_of_mem member
    refine ⟨before, s, after, split, ⟨_, ⟨f, first, rfl⟩, rfl, rfl⟩, fun other earlier lists => ?_⟩
    have above := lowest other (by simp [split, earlier]) lists
    rw [split] at sorted
    have below := (List.pairwise_append.mp sorted).2.2 other earlier s List.mem_cons_self
    omega

/-- A function that a class lists is found. -/
theorem exists_functionSlot (wf : h.WellFormed) (hr : r ∈ h.records)
    (listed : ∃ s ∈ r.subVtables, s.Lists name) :
    ∃ s f, r.FirstListing name s f ∧
      h.functionSlot? r.name name = some (r.key s.order, signedWord (s.distance f)) := by
  cases found : h.functionSlot? r.name name with
  | some slot =>
    obtain ⟨s, f, listing, key, offset⟩ := (wf.functionSlot?_eq_some_iff hr).mp found
    exact ⟨s, f, listing, by rw [← key, ← offset]⟩
  | none =>
    obtain ⟨s, hs, lists⟩ := listed
    unfold functionSlot? at found
    simp only [wf.record?_of_mem hr, Option.bind_eq_bind, Option.bind_some,
      List.findSome?_eq_none_iff, Option.map_eq_none_iff,
      SubVtable.functionOffset?_eq_none_iff] at found
    exact absurd lists (found s hs)

end WellFormed

/-- The node of a sub-vtable of a record. -/
theorem exists_node_of_subVtable {records : List ClassRecord}
    (ingested : ofRecords records = .ok h) (hr : r ∈ h.records) {s : SubVtable}
    (hs : s ∈ r.subVtables) : ∃ id < h.size, h.key id = r.key s.order ∧
      (h.node id).start = s.start ∧ (h.node id).last = s.last ∧
      (h.node id).addressPoint = s.addressPoint ∧ h.isDefined id = r.isDefined := by
  have wf := wellFormed_of_ofRecords ingested
  obtain ⟨id, lt, key⟩ := exists_node ingested (mem_keysOf.mpr ⟨r, hr, s, hs, rfl⟩)
  obtain ⟨r', hr', s', hs', own, start, last, point, defined, -⟩ := wf.described _ (node_mem lt)
  obtain ⟨rfl, rfl⟩ := wf.subVtable_unique hr' hs' hr hs (own.symm.trans key)
  exact ⟨id, lt, key, start, last, point, defined⟩

end Hierarchy

end VtableCloud
