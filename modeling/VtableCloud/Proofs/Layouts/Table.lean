import VtableCloud.Layouts.Table
import VtableCloud.Proofs.Layout.Cloud
import VtableCloud.Proofs.Range.Tuple

/-!
# What a filled table holds

* `WellFormed.slotElement_of_le`: a slot of a defined class keeps its old element;
* `materialize_ok`: each slot of a filled table holds the element of its slot, renamed;
* `WellFormed.materialize_ordered`: an ordered table that fits in the address space can be
  filled. Padding then never reaches so far in front that it is taken for a slot;
* `WellFormed.materialize_dummy`: filler is filled with null.
-/

namespace VtableCloud

namespace Hierarchy

variable {h : Hierarchy} {id : NodeId}

theorem WellFormed.element?_of_le (wf : h.WellFormed) (defined : h.isDefined id = true)
    {index : Nat} (le : index ≤ (h.node id).last) :
    ∃ e, h.element? (h.key id).className index = some e := by
  obtain ⟨r, record, enough⟩ := wf.elements defined
  have inside : index < r.elements.length := by omega
  refine ⟨r.elements[index], ?_⟩
  simp [element?, record, inside]

theorem WellFormed.nodeId_key (wf : h.WellFormed) (lt : id < h.size) :
    h.nodeId (h.key id) = .ok id := by
  rw [nodeId, wf.find?_key lt]

theorem WellFormed.slotElement_padding (wf : h.WellFormed) (lt : id < h.size) (root : String)
    {index : Int} (before : index < signedWord (h.node id).start) :
    h.slotElement root (.entry (h.key id) index) = .ok .null := by
  refine bind_ok.mpr ⟨id, mapError_ok.mpr (wf.nodeId_key lt), ?_⟩
  simp only [if_pos before]
  rfl

theorem WellFormed.slotElement_element (wf : h.WellFormed) (lt : id < h.size) (root : String)
    {index : Int} (within : ¬ index < signedWord (h.node id).start) {e : Element}
    (element : h.element? (h.key id).className index = some e) :
    h.slotElement root (.entry (h.key id) index) = .ok e := by
  refine bind_ok.mpr ⟨id, mapError_ok.mpr (wf.nodeId_key lt), ?_⟩
  simp only [if_neg within, element]
  rfl

/-- A slot of a defined class keeps its old element. -/
theorem WellFormed.slotElement_of_le (wf : h.WellFormed) (defined : h.isDefined id = true)
    {index : Nat} (lo : (h.node id).start ≤ index) (hi : index ≤ (h.node id).last)
    (root : String) :
    ∃ e, h.element? (h.key id).className index = some e ∧
      h.slotElement root (.entry (h.key id) index) = .ok e := by
  obtain ⟨e, element⟩ := wf.element?_of_le defined hi
  have start : signedWord (h.node id).start ≤ (h.node id).start :=
    signedWord_le (Int.natCast_nonneg _)
  exact ⟨e, element, wf.slotElement_element (lt_size_of_isDefined defined) root (by omega) element⟩

/-- Padding can be filled, unless it lies before the first slot of its class and is not seen
to do so. -/
theorem WellFormed.slotElement_of_lt (wf : h.WellFormed) (defined : h.isDefined id = true)
    {index : Int} (hi : index < (h.node id).start)
    (seen : 0 ≤ index ∨ index < signedWord (h.node id).start) (root : String) :
    ∃ e, h.slotElement root (.entry (h.key id) index) = .ok e := by
  have lt := lt_size_of_isDefined defined
  have point := wf.pointed lt
  by_cases before : index < signedWord (h.node id).start
  · exact ⟨.null, wf.slotElement_padding lt root before⟩
  · obtain ⟨n, rfl⟩ : ∃ n : Nat, index = n := ⟨index.toNat, by omega⟩
    have le : n ≤ (h.node id).last := by omega
    obtain ⟨e, element⟩ := wf.element?_of_le defined le
    exact ⟨e, wf.slotElement_element lt root before element⟩

end Hierarchy

variable {h : Hierarchy} {c : CloudLayout}

/-- Each slot of a filled table holds the element of its slot, as it is named in the table. -/
theorem materialize_ok {t : Table} (ok : materialize h c = .ok t) :
    t.elements.length = c.slots.length ∧ ∀ (p : Nat) (slot : Slot), c.slots[p]? = some slot →
      ∃ e, h.slotElement c.root slot = .ok e ∧ t.elements[p]? = some (e.renamed c.root) := by
  obtain ⟨old, filled, eq⟩ := bind_ok.mp ok
  obtain rfl := Except.ok.inj eq
  obtain ⟨length, each⟩ := mapM_ok filled
  refine ⟨by simp [length], fun p slot hp => ?_⟩
  obtain ⟨e, he, element⟩ := each p slot hp
  exact ⟨e, element, by simp [he]⟩

theorem materialize_of_forall (each : ∀ slot ∈ c.slots, ∃ e, h.slotElement c.root slot = .ok e) :
    ∃ t, materialize h c = .ok t := by
  obtain ⟨old, filled⟩ := mapM_ok_of_exists each
  exact ⟨_, bind_ok.mpr ⟨old, filled, rfl⟩⟩

/-- The alignment of an ordered table is at least as wide as any member. -/
theorem Hierarchy.WellFormed.extent_le_alignment (wf : h.WellFormed) {root : NodeId}
    {options : LayoutOptions} (fits : h.Fits options root) (row : options.strategy = .ordered)
    {m : Member} (hm : m ∈ h.paddedMembers root) (defined : m.node.isDefined = true) :
    m.extent ≤ (h.arrangedCloud options root).alignment := by
  have eq : (h.arrangedCloud options root).alignment = orderedAlignment (h.paddedMembers root) := by
    simp only [arrangedCloud, CloudLayout.ofArrangement, row]
    rfl
  have succeeds : orderedFails (h.paddedMembers root) = false := by
    have := fits.members.succeeds
    rwa [row] at this
  rw [eq]
  exact extent_le_orderedAlignment (orderedFails_eq_false_iff.mp succeeds m hm defined) hm
    ((wf.separate_paddedMembers fits).fits m hm defined)

/-- Padding that is not seen to be some would begin before slot 0 of a class whose own slots
begin in the upper half of the address space. The table is that long then, and so is its
alignment. -/
theorem Hierarchy.WellFormed.padding_seen (wf : h.WellFormed) {root : NodeId}
    {options : LayoutOptions} (fits : h.Fits options root) (row : options.strategy = .ordered)
    (positive : 0 < options.wordWidth) (room : (h.arrangedCloud options root).FitsAddressSpace)
    {k : Nat} {m : Member} (hk : (h.paddedMembers root)[k]? = some m)
    (defined : m.node.isDefined = true) (i : Nat) :
    0 ≤ m.first + (i : Int) ∨ m.first + (i : Int) < signedWord m.node.start := by
  by_contra unseen
  have own := (wf.separate_paddedMembers fits).fits m (List.mem_of_getElem? hk) defined
  have start := signBit_le_of_signedWord_neg (i := m.node.start) (Int.natCast_nonneg _) (by omega)
  have aligned := wf.extent_le_alignment fits row (List.mem_of_getElem? hk) defined
  have long : m.extent ≤ (h.arrangedCloud options root).slots.length :=
    (wf.arranges_arrangedCloud fits).extent_le_length hk defined
  have bytes := Nat.le_mul_of_pos_right (h.arrangedCloud options root).slots.length positive
  have alignmentBytes := Nat.le_mul_of_pos_right (h.arrangedCloud options root).alignment positive
  have room : (h.arrangedCloud options root).slots.length * options.wordWidth +
    (h.arrangedCloud options root).alignment * options.wordWidth < wordCount := room
  have first := own.first_eq
  have extent := own.extent_eq_width
  rw [signBit] at start
  rw [wordCount] at room
  omega

/-- An ordered table that fits in the address space can be filled. -/
theorem Hierarchy.WellFormed.materialize_ordered (wf : h.WellFormed) {root : NodeId}
    {options : LayoutOptions} (fits : h.Fits options root) (row : options.strategy = .ordered)
    (positive : 0 < options.wordWidth) (room : (h.arrangedCloud options root).FitsAddressSpace) :
    ∃ t, materialize h (h.arrangedCloud options root) = .ok t := by
  refine materialize_of_forall fun slot hs => ?_
  by_cases filler : slot = .dummy
  · exact ⟨.null, by rw [filler]; rfl⟩
  obtain ⟨k, m, i, hk, -, defined, inside, rfl⟩ := wf.member_of_slot fits hs filler
  have node := (getElem?_members hk).2.2
  have last := ((wf.separate_paddedMembers fits).fits m (List.mem_of_getElem? hk) defined).last_eq
  have seen := wf.padding_seen fits row positive room hk defined i
  rw [node] at last seen
  rw [isDefined_of_getElem? hk] at defined
  rw [Member.entry, ← key_of_getElem? hk]
  by_cases before : m.first + (i : Int) < (h.node m.id).start
  · exact wf.slotElement_of_lt defined before seen _
  · obtain ⟨n, eq⟩ : ∃ n : Nat, m.first + (i : Int) = n := ⟨(m.first + i).toNat, by omega⟩
    have le : n ≤ (h.node m.id).last := by omega
    rw [eq]
    obtain ⟨e, -, element⟩ := wf.slotElement_of_le defined (by omega) le _
    exact ⟨e, element⟩

/-- Filler is only found in ordered tables, and filled with null. -/
theorem Hierarchy.WellFormed.materialize_dummy (wf : h.WellFormed) {root : NodeId}
    {options : LayoutOptions} (fits : h.Fits options root) (positive : 0 < options.wordWidth)
    (room : (h.arrangedCloud options root).FitsAddressSpace) {p : Nat}
    (hp : (h.arrangedCloud options root).slots[p]? = some .dummy) :
    ∃ t, materialize h (h.arrangedCloud options root) = .ok t ∧
      t.elements[p]? = some .null := by
  cases strategy : options.strategy with
  | interleaved =>
    have sep := wf.separate_paddedMembers fits
    have slots : (h.arrangedCloud options root).slots =
        (interleaved (h.paddedMembers root)).slots := by
      simp only [arrangedCloud, CloudLayout.ofArrangement, strategy]
      rfl
    obtain ⟨m, -, -, i, -, eq⟩ :=
      mem_interleaved sep.fits (slots ▸ List.mem_of_getElem? hp)
    exact absurd eq.symm (m.entry_ne_dummy i)
  | ordered =>
    obtain ⟨t, ok⟩ := wf.materialize_ordered fits strategy positive room
    obtain ⟨e, filled, element⟩ := (materialize_ok ok).2 p .dummy hp
    obtain rfl : Element.null = e := Except.ok.inj filled
    exact ⟨t, ok, element⟩

end VtableCloud
