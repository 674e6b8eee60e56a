import VtableCloud.Proofs.Layouts.Index
import VtableCloud.Proofs.Layouts.Precise
import VtableCloud.Proofs.Layouts.Table

/-!
# Dispatch through ordered tables

A call through a key loads a pointer that passed the check of the key's ranges, and follows
it by the translated distance of the function.

* `WellFormed.elements_ordered`: what stands after an address point of an ordered table;
* `Built.translate_ordered`: in an ordered table distances after the address point stay;
* `dispatch_ordered`: a call that passes its check finds what its receiver's class had there.
-/

namespace VtableCloud

namespace Hierarchy

variable {h : Hierarchy} {options : LayoutOptions} {root id : NodeId}

/-- After the address point of a defined class in an ordered table follow the slots that
followed it in the vtable of the class. -/
theorem WellFormed.getElem?_ordered (wf : h.WellFormed) (fits : h.Fits options root)
    (row : options.strategy = .ordered) (path : h.Descends root id)
    (defined : h.isDefined id = true) {r : Nat}
    (within : r ≤ (h.node id).last - (h.node id).addressPoint) :
    (h.arrangedCloud options root).slots[(h.arrangedCloud options root).addressPoint h id + r]? =
      some (.entry (h.key id) ((h.node id).addressPoint + r : Nat)) := by
  obtain ⟨k, m, hm, rfl, node, defined⟩ := member_of_isDefined path defined
  have own := (wf.separate_paddedMembers fits).fits m (List.mem_of_getElem? hm) defined
  have inside : m.before + r < m.extent := by
    rw [own.extent_eq, Member.after, node]
    omega
  have placed := (wf.arranges_arrangedCloud fits).placed k m hm defined _ inside
  rw [row, Strategy.place_ordered, ← Nat.add_assoc, ← Strategy.place_ordered] at placed
  rw [wf.addressPoint_of_place fits hm defined, row, placed, Member.entry, Member.key, node]
  have first := own.addressPoint_eq
  rw [node] at first
  refine congrArg (fun index => some (Slot.entry _ index)) ?_
  push_cast
  omega

/-- The elements after the address point of a defined class in a filled ordered table are
those that followed it in the vtable of the class. -/
theorem WellFormed.elements_ordered (wf : h.WellFormed) (fits : h.Fits options root)
    (row : options.strategy = .ordered) (path : h.Descends root id)
    (defined : h.isDefined id = true) {r : Nat}
    (within : r ≤ (h.node id).last - (h.node id).addressPoint) {t : Table}
    (filled : materialize h (h.arrangedCloud options root) = .ok t) :
    ∃ e, h.element? (h.key id).className ((h.node id).addressPoint + r : Nat) = some e ∧
      t.elements[(h.arrangedCloud options root).addressPoint h id + r]? =
        some (e.renamed (h.arrangedCloud options root).root) := by
  have point := wf.pointed (lt_size_of_isDefined defined)
  have slot := wf.getElem?_ordered fits row path defined within
  obtain ⟨e, old, element⟩ := (materialize_ok filled).2 _ _ slot
  have last : (h.node id).addressPoint + r ≤ (h.node id).last := by omega
  obtain ⟨e', original, old'⟩ := wf.slotElement_of_le defined (by omega) last
    (h.arrangedCloud options root).root
  obtain rfl := Except.ok.inj (old'.symm.trans old)
  exact ⟨_, original, element⟩

/-- No member of a cloud is wider, padding included, than some power of two of slots whose bytes
fit in the address space. -/
def Alignable (h : Hierarchy) (wordWidth : Nat) : Prop :=
  ∀ name ∈ h.roots, ∀ id, h.rootId name = .ok id →
    ∃ t, 2 ^ t * wordWidth < wordCount ∧ ∀ m ∈ h.paddedMembers id, m.node.width + m.pad ≤ 2 ^ t

/-- In memory, the numbers of a cloud fit the ordered strategy if one alignment fits in the
address space. -/
theorem WellFormed.allFit_ordered (wf : h.WellFormed) (inMemory : h.InMemory) {wordWidth : Nat}
    (positive : 0 < wordWidth) (alignable : h.Alignable wordWidth) :
    h.AllFit ⟨.ordered, wordWidth⟩ := by
  intro name hr id found
  obtain ⟨t, room, narrow⟩ := alignable name hr id found
  have lt := (wf.rootId_ok found).1
  have power : 2 ^ t < 2 ^ 64 := by
    rw [← wordCount_eq]
    exact Nat.lt_of_le_of_lt (Nat.le_mul_of_pos_right _ positive) room
  have half : 2 ^ t ≤ signBit := by
    rw [signBit_eq]
    have short := (Nat.pow_lt_pow_iff_right (by omega)).mp power
    exact Nat.pow_le_pow_right (by omega) (by omega)
  have sizes : ∀ m ∈ h.paddedMembers id, m.node.width + m.pad ≤ signBit := fun m hm =>
    Nat.le_trans (narrow m hm) half
  refine ⟨lt, ?words, ?succeeds⟩
  case words =>
    intro m hm defined
    have size := sizes m hm
    obtain ⟨node, inside⟩ := wf.node_of_mem lt hm
    have placed : h.isDefined m.id := by rw [isDefined, ← node, defined]
    have last := wf.last_lt_signBit inMemory placed
    have point := wf.pointed inside
    rw [← node] at last point
    rw [signBit] at size last
    constructor
    · rw [fitsSigned, decide_eq_true_eq, signBit]
      rw [Node.width] at size
      omega
    · rw [wordCount]
      omega
  case succeeds =>
    exact orderedFails_eq_false_iff.mpr fun _ _ _ => orderedAlignment_pos sizes

end Hierarchy

namespace Layouts.Built

variable {l : Layouts} {id d : NodeId}

/-- A monotone hierarchy keeps distances after the address point in ordered tables. -/
theorem translate_ordered (built : l.Built) (row : l.options.strategy = .ordered)
    (mono : l.hierarchy.Monotone) {key : SubVtableKey} (found : l.hierarchy.find? key = some id)
    (path : l.hierarchy.Descends id d) (defined : l.hierarchy.isDefined d = true) {r : Nat}
    (within : r ≤ (l.hierarchy.node id).last - (l.hierarchy.node id).addressPoint) :
    l.translate key r true = .ok (r : Int) := by
  obtain ⟨s, represented, down, here⟩ := Hierarchy.representative_of_descends path defined
  obtain ⟨k, m, hm, rfl, node, -⟩ :=
    Hierarchy.member_of_isDefined (built.wf.descends_cloudRoot s) here
  have far := mono.of_descends down
  have after : (r : Int) ≤ m.after := by
    rw [Member.after, node]
    omega
  rw [built.translate_of_place found represented hm (by omega) after, place, row,
    Strategy.place_ordered, Strategy.place_ordered _ _ m.before]
  congr 1
  omega

end Layouts.Built

/-- A monotone hierarchy in memory has ordered tables, if one alignment of each fits in the address
space. There, a call through a key that passes its check finds the element that the class of its
receiver had at the called slot. The receiver's class is the only defined descendant of the key
whose address point was loaded. -/
theorem dispatch_ordered {records : List ClassRecord} {h : Hierarchy} {wordWidth : Nat}
    (ingested : Hierarchy.ofRecords records = .ok h) (mono : h.Monotone)
    (positive : 0 < wordWidth) :
    (h.InMemory → h.Alignable wordWidth → ∃ l, Layouts.build h ⟨.ordered, wordWidth⟩ = .ok l) ∧
    ∀ l, Layouts.build h ⟨.ordered, wordWidth⟩ = .ok l → l.FitsAddressSpace →
      ∀ key id, h.find? key = some id → (∃ d, h.Descends id d ∧ h.isDefined d = true) →
      ∃ c table set, l.cloudOf id = .ok c ∧ materialize h c = .ok table ∧
        l.rangeFor key .precise = .ok (some set) ∧
        ∀ r : Nat, r ≤ (h.node id).last - (h.node id).addressPoint →
        ∃ t, l.translate key r true = .ok t ∧ ∀ a : UInt64, set.admits a = true →
        ∃ d e, (∀ d', (h.Descends id d' ∧ h.isDefined d' = true ∧
            c.addressPointOffset? h (h.key d') = some a.toNat) ↔ d' = d) ∧
          h.element? (h.key d).className ((h.node d).addressPoint + r : Nat) = some e ∧
          ∃ slot : Nat, (slot : Int) = (a.toNat / wordWidth : Nat) + t ∧
            table.elements[slot]? = some (e.renamed c.root) := by
  have wf := Hierarchy.wellFormed_of_ofRecords ingested
  refine ⟨fun inMemory alignable => (Layouts.build_of_monotone wf mono positive).mpr
    (wf.allFit_ordered inMemory positive alignable), fun l laid => ?_⟩
  obtain ⟨built, rfl, options⟩ := Layouts.built_of_build wf laid
  rintro fits key id found ⟨d, path, defined⟩
  have row : l.options.strategy = .ordered := by rw [options]
  have lt := (wf.find?_eq_some.mp found).1
  have inside := built.fits id lt
  obtain ⟨table, filled⟩ := wf.materialize_ordered inside row built.positive
    (fits _ (built.hosted id lt))
  obtain ⟨set, precise, admits, -⟩ := built.preciseRanges_spec fits lt
  refine ⟨_, table, set, built.cloudOf id lt, filled, ?_, fun r within => ?_⟩
  · rw [built.rangeFor_of_descends found path defined, precise]
    rfl
  refine ⟨r, built.translate_ordered row mono found path defined within, fun a admitted => ?_⟩
  obtain ⟨p, hp, eq⟩ := (admits a).mp admitted
  obtain ⟨x, down, here, rfl⟩ := built.mem_points.mp hp
  have long := Nat.le_trans within (mono.of_descends down)
  obtain ⟨e, original, element⟩ := wf.elements_ordered inside row
    ((wf.descends_cloudRoot id).trans down) here long filled
  have slot : a.toNat / wordWidth = (l.arrangedCloud id).addressPoint l.hierarchy x := by
    rw [eq, options]
    exact Nat.mul_div_cancel _ positive
  refine ⟨x, e, fun d' => ?_, original, _, ?_, element⟩
  · rw [eq]
    exact built.addressPointOffset?_eq_some fits lt down here
  · rw [slot]
    exact Int.natCast_add _ _

/-- A call through `Left` may load a pointer to `Tip`, and finds the clone of its thunk there. -/
theorem diamond_dispatch :
    ∃ l c table set, Layouts.build Diamond.hierarchy ⟨.ordered, 8⟩ = .ok l ∧ l.cloudOf 1 = .ok c ∧
      materialize Diamond.hierarchy c = .ok table ∧
      l.rangeFor (.primary "Left") .precise = .ok (some set) ∧ set.admits 128 = true ∧
      ∃ t, l.translate (.primary "Left") (1 : Nat) true = .ok t ∧
        ∃ slot : Nat, (slot : Int) = 16 + t ∧
          table.elements[slot]? = some (.function "_SVTBase_ZTv0_n24_N3Tip1gEv") := by
  obtain ⟨accepted, calls⟩ := @dispatch_ordered Diamond.records Diamond.hierarchy 8
    Diamond.ofRecords_records Diamond.monotone (by decide)
  have alignable : Diamond.hierarchy.Alignable 8 := by
    intro name hr id found
    obtain rfl := Diamond.eq_zero_of_rootId hr found
    exact ⟨3, by decide, by decide +kernel⟩
  obtain ⟨l, laid⟩ := accepted (by decide +kernel) alignable
  have call := calls l laid
  obtain rfl := Except.ok.inj laid
  obtain ⟨c, table, set, host, filled, precise, loads⟩ := call (by decide +kernel)
    (.primary "Left") 1 rfl ⟨3, Hierarchy.mem_preorder.mp (by decide +kernel), rfl⟩
  obtain ⟨t, translated, finds⟩ := loads 1 (by decide +kernel)
  have admitted : set.admits 128 = true := by
    obtain rfl := Option.some.inj (Except.ok.inj precise)
    decide +kernel
  obtain ⟨d, e, unique, original, slot, place, element⟩ := finds 128 admitted
  have receiver : 3 = d := (unique 3).mp ⟨Hierarchy.mem_preorder.mp (by decide +kernel), rfl, by
    obtain rfl := Except.ok.inj host
    rfl⟩
  subst receiver
  obtain rfl := Option.some.inj original
  obtain rfl := Except.ok.inj host
  exact ⟨_, _, table, set, laid, rfl, filled, precise, admitted, t, translated, slot, place,
    element⟩

end VtableCloud
