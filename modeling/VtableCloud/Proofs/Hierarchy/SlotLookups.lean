import VtableCloud.Proofs.Hierarchy.Ancestry
import VtableCloud.Proofs.Hierarchy.FunctionSlot

/-!
# Which sub-vtable a slot belongs to

The slots of a class are looked up by searches that stop at the first sub-vtable that fits. No
other one fits, because sub-vtables are apart and each holds its own address point.

* `ClassRecord.WellFormed.eq_of_contains`: a slot lies in one sub-vtable at most;
* `WellFormed.subVtableOrder?_eq_some_iff`, `WellFormed.addressPointOrder?_eq_some_iff`: what the
  lookups find, for known and unknown classes alike;
* `addressPoint_ok_iff`: which keys have which address point;
* `locatesSlots_of_ofRecords`: the lookups of every hierarchy built from records undo each other.
-/

namespace VtableCloud

namespace ClassRecord.WellFormed

variable {r : ClassRecord} {s t : SubVtable} {slot : Nat}

/-- Sub-vtables that share a slot are the same. -/
theorem eq_of_contains (wf : r.WellFormed) (hs : s ∈ r.subVtables) (ht : t ∈ r.subVtables)
    (first : s.contains slot = true) (second : t.contains slot = true) : s = t := by
  obtain ⟨i, hi, rfl⟩ := List.getElem_of_mem hs
  obtain ⟨j, hj, rfl⟩ := List.getElem_of_mem ht
  have apart := List.pairwise_iff_getElem.mp wf.disjoint
  rw [SubVtable.contains_iff] at first second
  rcases Nat.lt_trichotomy i j with before | rfl | after
  · have := apart i j hi hj before
    omega
  · rfl
  · have := apart j i hj hi after
    omega

theorem contains_addressPoint (wf : r.WellFormed) (hs : s ∈ r.subVtables) :
    s.contains s.addressPoint = true := SubVtable.contains_iff.mpr (wf.pointed s hs)

/-- Sub-vtables with the same address point are the same. -/
theorem eq_of_addressPoint (wf : r.WellFormed) (hs : s ∈ r.subVtables) (ht : t ∈ r.subVtables)
    (same : s.addressPoint = t.addressPoint) : s = t :=
  wf.eq_of_contains hs ht (wf.contains_addressPoint hs) (same ▸ wf.contains_addressPoint ht)

end ClassRecord.WellFormed

namespace Hierarchy

/-- What the lookups of slots say of each other. -/
structure LocatesSlots (h : Hierarchy) : Prop where
  /-- A slot is found in the sub-vtable that holds it. -/
  holding : ∀ className slot order, h.subVtableOrder? className slot = some order ↔
    ∃ r ∈ h.records, r.name = className ∧
      ∃ s ∈ r.subVtables, s.order = order ∧ s.start ≤ slot ∧ slot ≤ s.last
  /-- An address point is found at the known key that has it. -/
  pointing : ∀ className slot order, h.addressPointOrder? className slot = some order ↔
    h.knows ⟨className, order⟩ = true ∧ h.addressPoint ⟨className, order⟩ = .ok slot
  held : ∀ className slot order, h.addressPointOrder? className slot = some order →
    h.subVtableOrder? className slot = some order
  unknown : ∀ className, (∀ r ∈ h.records, r.name ≠ className) → ∀ slot,
    h.subVtableOrder? className slot = none ∧ h.addressPointOrder? className slot = none
  /-- A function has a slot in the sub-vtable where it is found. Its distance from the address point
  leads to this slot, counted in words, and to the slot itself if it is a signed word. In a defined
  class with a vtable that fits in memory it is. -/
  listing : ∀ className name key offset,
    h.functionSlot? className name = some (key, offset) →
    key.className = className ∧ ∃ point slot : Nat, h.addressPoint key = .ok point ∧
      h.subVtableOrder? className slot = some key.order ∧
      (wordCount : Int) ∣ point + offset - slot ∧
      (point + offset = slot ↔ fitsSigned (slot - point) = true) ∧
      ∀ r, h.record? className = some r → r.isDefined = true → r.elements.length ≤ signBit →
        fitsSigned (slot - point) = true

variable {h : Hierarchy} {r : ClassRecord} {className : String} {slot order : Nat}

namespace WellFormed

theorem record?_eq_some_iff (wf : h.WellFormed) :
    h.record? className = some r ↔ r ∈ h.records ∧ r.name = className := by
  constructor
  · intro found
    exact ⟨List.mem_of_find?_eq_some found, by simpa using List.find?_some found⟩
  · rintro ⟨hr, rfl⟩
    exact wf.record?_of_mem hr

/-- A search for a sub-vtable of a class finds the one that has a property, if no two have it. -/
theorem order_of_search_iff (wf : h.WellFormed) {p : SubVtable → Bool}
    (unique : ∀ r : ClassRecord, r.WellFormed → ∀ s ∈ r.subVtables, ∀ t ∈ r.subVtables,
      p s = true → p t = true → s = t) :
    ((h.record? className).bind fun r => (r.subVtables.find? p).map (·.order)) = some order ↔
      ∃ r ∈ h.records, r.name = className ∧ ∃ s ∈ r.subVtables, s.order = order ∧ p s = true := by
  simp only [Option.bind_eq_some_iff, Option.map_eq_some_iff, wf.record?_eq_some_iff]
  constructor
  · rintro ⟨r, ⟨hr, name⟩, s, found, rfl⟩
    exact ⟨r, hr, name, s, List.mem_of_find?_eq_some found, rfl, List.find?_some found⟩
  · rintro ⟨r, hr, name, s, hs, rfl, holds⟩
    have only := unique r (wf.collected.wellFormed r hr)
    exact ⟨r, ⟨hr, name⟩, s, (find?_eq_some_iff_of_unique only).mpr ⟨hs, holds⟩, rfl⟩

/-- A slot is looked up in the sub-vtable that holds it. -/
theorem subVtableOrder?_eq_some_iff (wf : h.WellFormed) :
    h.subVtableOrder? className slot = some order ↔ ∃ r ∈ h.records, r.name = className ∧
      ∃ s ∈ r.subVtables, s.order = order ∧ s.start ≤ slot ∧ slot ≤ s.last := by
  simp only [← SubVtable.contains_iff]
  apply wf.order_of_search_iff
  intro r own s hs t ht
  exact own.eq_of_contains hs ht

/-- An address point is looked up in the sub-vtable that has it. -/
theorem addressPointOrder?_eq_some_iff (wf : h.WellFormed) :
    h.addressPointOrder? className slot = some order ↔ ∃ r ∈ h.records, r.name = className ∧
      ∃ s ∈ r.subVtables, s.order = order ∧ s.addressPoint = slot := by
  have points (s : SubVtable) : s.addressPoint = slot ↔ (s.addressPoint == slot) = true :=
    beq_iff_eq.symm
  simp only [points]
  apply wf.order_of_search_iff
  intro r own s hs t ht first second
  rw [← points] at first second
  exact own.eq_of_addressPoint hs ht (first.trans second.symm)

end WellFormed

theorem addressPoint_eq_ok_iff {key : SubVtableKey} :
    h.addressPoint key = .ok slot ↔
      ∃ id, h.find? key = some id ∧ (h.node id).addressPoint = slot := by
  rw [addressPoint, nodeId]
  cases h.find? key with
  | none =>
    constructor
    · intro ok
      cases ok
    · rintro ⟨id, found, -⟩
      cases found
  | some id =>
    constructor
    · intro ok
      exact ⟨id, rfl, Except.ok.inj ok⟩
    · rintro ⟨id', same, rfl⟩
      cases same
      rfl

/-- The address point of a key is that of its sub-vtable. -/
theorem addressPoint_ok_iff {records : List ClassRecord} (ingested : ofRecords records = .ok h) :
    h.addressPoint ⟨className, order⟩ = .ok slot ↔ ∃ r ∈ h.records, r.name = className ∧
      ∃ s ∈ r.subVtables, s.order = order ∧ s.addressPoint = slot := by
  have wf := wellFormed_of_ofRecords ingested
  rw [addressPoint_eq_ok_iff]
  constructor
  · rintro ⟨id, found, rfl⟩
    obtain ⟨lt, key⟩ := wf.find?_eq_some.mp found
    obtain ⟨r, hr, s, hs, own, -, -, point, -⟩ := wf.described _ (node_mem lt)
    obtain ⟨name, number⟩ := SubVtableKey.mk.inj (own.symm.trans key)
    exact ⟨r, hr, name, s, hs, number, point.symm⟩
  · rintro ⟨r, hr, rfl, s, hs, rfl, rfl⟩
    obtain ⟨id, lt, key, -, -, point, -⟩ := exists_node_of_subVtable ingested hr hs
    exact ⟨id, wf.find?_eq_some.mpr ⟨lt, key⟩, point⟩

/-- A key with an address point is known. -/
theorem knows_of_addressPoint {key : SubVtableKey} (point : h.addressPoint key = .ok slot) :
    h.knows key = true := by
  obtain ⟨id, found, -⟩ := addressPoint_eq_ok_iff.mp point
  exact knows_iff.mpr ⟨id, found⟩

end Hierarchy

open Hierarchy in
/-- In a hierarchy built from records the lookups of slots are inverse to each other: a slot is
found in the one sub-vtable that holds it, an address point at the one known key that has it, and
the distance of a function from an address point leads back into the sub-vtable that lists the
function, unless it is no signed word, which happens to undefined classes only. -/
theorem locatesSlots_of_ofRecords {records : List ClassRecord} {h : Hierarchy}
    (ingested : ofRecords records = .ok h) : h.LocatesSlots := by
  have wf := wellFormed_of_ofRecords ingested
  constructor
  case holding => exact fun className slot order => wf.subVtableOrder?_eq_some_iff
  case pointing =>
    intro className slot order
    rw [wf.addressPointOrder?_eq_some_iff, ← addressPoint_ok_iff ingested]
    exact ⟨fun point => ⟨knows_of_addressPoint point, point⟩, fun both => both.2⟩
  case held =>
    intro className slot order found
    obtain ⟨r, hr, name, s, hs, number, rfl⟩ := wf.addressPointOrder?_eq_some_iff.mp found
    have inside := (wf.collected.wellFormed r hr).pointed s hs
    exact wf.subVtableOrder?_eq_some_iff.mpr ⟨r, hr, name, s, hs, number, inside⟩
  case unknown =>
    intro className absent slot
    constructor
    · rw [Option.eq_none_iff_forall_ne_some]
      intro order found
      obtain ⟨r, hr, name, -⟩ := wf.subVtableOrder?_eq_some_iff.mp found
      exact absent r hr name
    · rw [Option.eq_none_iff_forall_ne_some]
      intro order found
      obtain ⟨r, hr, name, -⟩ := wf.addressPointOrder?_eq_some_iff.mp found
      exact absent r hr name
  case listing =>
    intro className name key offset found
    obtain ⟨r, record⟩ : ∃ r, h.record? className = some r := by
      cases record : h.record? className with
      | some r => exact ⟨r, rfl⟩
      | none => simp [functionSlot?, record] at found
    obtain ⟨hr, rfl⟩ := wf.record?_eq_some_iff.mp record
    obtain ⟨s, f, listing, rfl, rfl⟩ := (wf.functionSlot?_eq_some_iff hr).mp found
    have own := wf.collected.wellFormed r hr
    have inside := own.slot_le_last listing
    have pointed := own.pointed s listing.member
    refine ⟨rfl, s.addressPoint, s.start + f.offset, ?_, ?_, ?_, ?_, ?_⟩
    · exact (addressPoint_ok_iff ingested).mpr ⟨r, hr, rfl, s, listing.member, rfl, rfl⟩
    · exact wf.subVtableOrder?_eq_some_iff.mpr
        ⟨r, hr, rfl, s, listing.member, rfl, Nat.le_add_right _ _, inside⟩
    · have around :
          (s.addressPoint : Int) + signedWord (s.distance f) - (s.start + f.offset : Nat) =
          signedWord (s.distance f) - s.distance f := by
        rw [SubVtable.distance]
        omega
      rw [around]
      exact wordCount_dvd_signedWord_sub _
    · rw [← signedWord_eq_iff, SubVtable.distance]
      omega
    · intro r' record' defined few
      obtain rfl := Option.some.inj (record.symm.trans record')
      have elements := own.elements defined s listing.member
      rw [fitsSigned, decide_eq_true_eq]
      omega

namespace Panel

/-- A class with two bases and slots between its sub-vtables that belong to neither. -/
def records : List ClassRecord := [
  ⟨"Clickable", [⟨0, .empty, 0, 2, 1, [⟨"click", 0⟩]⟩], [.null, .null, .null], true⟩,
  ⟨"Panel", [⟨0, .ofList [.primary "Widget"], 1, 3, 2, [⟨"draw", 2⟩]⟩,
      ⟨1, .ofList [.primary "Clickable"], 6, 8, 7, [⟨"click", 0⟩, ⟨"draw", 1⟩]⟩],
    List.replicate 9 .null, true⟩,
  ⟨"Widget", [⟨0, .empty, 0, 2, 1, [⟨"draw", 2⟩]⟩], [.null, .null, .null], true⟩]

def hierarchy : Hierarchy := (Hierarchy.ofRecords records).toOption.getD .empty

end Panel

/-- A slot in the gap belongs to no sub-vtable, and a function in front of the address point of the
second one is found there. -/
theorem panel_locatesSlots : Panel.hierarchy.LocatesSlots ∧
    Panel.hierarchy.subVtableOrder? "Panel" 5 = none ∧
    Panel.hierarchy.subVtableOrder? "Panel" 6 = some 1 ∧
    Panel.hierarchy.addressPointOrder? "Panel" 7 = some 1 ∧
    Panel.hierarchy.addressPoint ⟨"Panel", 1⟩ = .ok 7 ∧
    Panel.hierarchy.functionSlot? "Panel" "click" = some (⟨"Panel", 1⟩, -1) := by
  have ingested : Hierarchy.ofRecords Panel.records = .ok Panel.hierarchy := by rfl
  exact ⟨locatesSlots_of_ofRecords ingested, by decide +kernel⟩

namespace Distant

/-- A class that is emitted elsewhere, with its address point more than half of all words behind the
slot of its function. -/
def records : List ClassRecord :=
  [⟨"Distant", [⟨0, .empty, 0, 9223372036854775809, 9223372036854775809, [⟨"f", 0⟩]⟩], [], false⟩]

def hierarchy : Hierarchy := (Hierarchy.ofRecords records).toOption.getD .empty

end Distant

/-- The function has the first slot of the class, but from the address point its distance leads
behind all slots. -/
theorem distant_slot_missed :
    Hierarchy.ofRecords Distant.records = .ok Distant.hierarchy ∧
    Distant.hierarchy.functionSlot? "Distant" "f" =
      some (.primary "Distant", 9223372036854775807) ∧
    Distant.hierarchy.addressPoint (.primary "Distant") = .ok 9223372036854775809 ∧
    Distant.hierarchy.subVtableOrder? "Distant" 0 = some 0 ∧
    ∀ slot : Nat, (slot : Int) = 9223372036854775809 + 9223372036854775807 →
      Distant.hierarchy.subVtableOrder? "Distant" slot = none := by
  refine ⟨by rfl, by decide +kernel, by decide +kernel, by decide +kernel, fun slot sum => ?_⟩
  obtain rfl : slot = 18446744073709551616 := by omega
  decide +kernel

end VtableCloud
