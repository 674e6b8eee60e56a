import VtableCloud.Layout.Basic
import VtableCloud.Proofs.Hierarchy.Monotone
import VtableCloud.Proofs.Arrangement.Padding
import VtableCloud.Proofs.Word

/-!
# What an arrangement of members achieves

`Arranges` says where a table holds each slot of each defined member, whichever strategy
made the table. Later results know of the two strategies only that they achieve this.

* `Member.InWords`: the numbers of a member are machine words, so that none of them wraps;
* `Separate`: members with different keys, as those of a cloud are, whose numbers are words;
* `EntriesOnce`: no slot but filler stands in a table twice;
* `Arranges.positions_eq`: the positions recorded for a member;
* `Arranges.extent_le_length`: a table is at least as long as each of its defined members.
-/

namespace VtableCloud

/-! ## Slots of members -/

namespace Member

theorem entry_ne_dummy (m : Member) (i : Nat) : m.entry i ≠ .dummy := nofun

theorem key_of_entry_eq {m m' : Member} {i j : Nat} (eq : m.entry i = m'.entry j) :
    m.key = m'.key :=
  (Slot.entry.inj eq).1

@[simp] theorem entry_inj {m : Member} {i j : Nat} : m.entry i = m.entry j ↔ i = j := by
  simp only [entry, Slot.entry.injEq, true_and]
  omega

theorem mem_entries {m : Member} {s : Slot} : s ∈ m.entries ↔ ∃ i < m.extent, s = m.entry i := by
  simp [entries, eq_comm]

/-- The address point of the member's node lies inside it. -/
def Pointed (m : Member) : Prop :=
  m.node.start ≤ m.node.addressPoint ∧ m.node.addressPoint ≤ m.node.last

/-- The index of the member's first padding slot is a signed word, and the number of its slots
an unsigned one. -/
structure InWords (m : Member) : Prop where
  first : fitsSigned ((m.node.start : Int) - m.pad) = true
  size : m.node.width + m.pad < wordCount

instance (m : Member) : Decidable m.InWords :=
  decidable_of_iff (fitsSigned ((m.node.start : Int) - m.pad) = true ∧
    m.node.width + m.pad < wordCount) ⟨fun ⟨first, size⟩ => ⟨first, size⟩, fun h => ⟨h.1, h.2⟩⟩

/-- The address point lies inside, and the numbers of the member are words. -/
structure Fits (m : Member) : Prop where
  pointed : m.Pointed
  words : m.InWords

namespace Fits

variable {m : Member}

theorem first_eq (h : m.Fits) : m.first = (m.node.start : Int) - m.pad :=
  signedWord_eq_iff.mpr h.words.first

theorem extent_eq (h : m.Fits) : m.extent = m.before + m.after + 1 := by
  obtain ⟨lo, hi⟩ := h.pointed
  have first := h.first_eq
  simp only [extent, before, after, Node.addressOffset]
  omega

theorem size_eq (h : m.Fits) : m.size = m.extent := by
  obtain ⟨lo, hi⟩ := h.pointed
  have first := h.first_eq
  rw [size, unsignedWord_of_lt h.words.size]
  simp only [extent, Node.width]
  omega

theorem extent_eq_width (h : m.Fits) : m.extent = m.node.width + m.pad := by
  rw [← h.size_eq, size, unsignedWord_of_lt h.words.size]

theorem extent_lt (h : m.Fits) : m.extent < wordCount := h.size_eq ▸ unsignedWord_lt _

theorem before_lt (h : m.Fits) : m.before < m.extent := by
  rw [h.extent_eq]
  omega

theorem addressPoint_eq (h : m.Fits) : (m.node.addressPoint : Int) = m.first + m.before := by
  obtain ⟨lo, hi⟩ := h.pointed
  rw [h.first_eq]
  simp only [before, Node.addressOffset]
  omega

theorem last_eq (h : m.Fits) : (m.node.last : Int) + 1 = m.first + m.extent := by
  have extent := h.extent_eq
  have point := h.addressPoint_eq
  obtain ⟨lo, hi⟩ := h.pointed
  simp only [after] at extent
  omega

end Fits

end Member

/-- No two members have the same key. -/
def DistinctKeys (members : List Member) : Prop := (members.map (·.key)).Nodup

namespace DistinctKeys

variable {members : List Member}

theorem place_of_key (keys : DistinctKeys members) {k l : Nat} {m m' : Member}
    (hm : members[k]? = some m) (hm' : members[l]? = some m') (same : m.key = m'.key) : k = l :=
  place_unique keys (a := m.key) (by simp [hm]) (by simp [hm', same])

theorem eq_of_key (keys : DistinctKeys members) {m m' : Member} (hm : m ∈ members)
    (hm' : m' ∈ members) (same : m.key = m'.key) : m = m' := by
  obtain ⟨k, hk⟩ := List.mem_iff_getElem?.mp hm
  obtain ⟨l, hl⟩ := List.mem_iff_getElem?.mp hm'
  obtain rfl := keys.place_of_key hk hl same
  exact Option.some.inj (hk.symm.trans hl)

theorem find?_key (keys : DistinctKeys members) {m : Member} (hm : m ∈ members) :
    members.find? (·.key == m.key) = some m := by
  cases found : members.find? (·.key == m.key) with
  | none =>
    have := List.find?_eq_none.mp found m hm
    simp at this
  | some m' =>
    have same := List.find?_some found
    exact congrArg some (keys.eq_of_key (List.mem_of_find?_eq_some found) hm (beq_iff_eq.mp same))

end DistinctKeys

/-- Members as a cloud has them: with different keys, each defined one with its address point
inside and its numbers in words. -/
structure Separate (members : List Member) : Prop where
  keys : DistinctKeys members
  fits : ∀ m ∈ members, m.node.isDefined = true → m.Fits

namespace Separate

variable {members : List Member}

theorem filter (sep : Separate members) (p : Member → Bool) : Separate (members.filter p) where
  keys := sep.keys.sublist (List.filter_sublist.map _)
  fits m hm := sep.fits m (List.mem_filter.mp hm).1

end Separate

namespace Hierarchy

variable {h : Hierarchy} {root : NodeId} {pads : List Nat}

/-- The node of a member is one of the cloud. -/
theorem WellFormed.node_of_mem (wf : h.WellFormed) (lt : root < h.size) {m : Member}
    (hm : m ∈ h.members (h.preorder root) pads) : m.node = h.node m.id ∧ m.id < h.size := by
  obtain ⟨k, hk⟩ := List.mem_iff_getElem?.mp hm
  obtain ⟨hid, -, eq⟩ := getElem?_members hk
  exact ⟨eq, wf.lt_size_of_descends (mem_preorder.mp (List.mem_of_getElem? hid)) lt⟩

theorem WellFormed.distinctKeys (wf : h.WellFormed) (lt : root < h.size)
    (length : pads.length = (h.preorder root).length) :
    DistinctKeys (h.members (h.preorder root) pads) := by
  have keys : (h.members (h.preorder root) pads).map (·.key) = (h.preorder root).map h.key := by
    conv_rhs => rw [← map_id_members (h := h) length, List.map_map]
    exact List.map_congr_left fun m hm => congrArg Node.key (wf.node_of_mem lt hm).1
  have inside : ∀ id ∈ h.preorder root, id < h.size := fun id hid =>
    wf.lt_size_of_descends (mem_preorder.mp hid) lt
  have once : (h.preorder root).Nodup := Digraph.nodup_preorder _ _
  rw [DistinctKeys, keys, List.nodup_iff_pairwise_ne, List.pairwise_map]
  refine once.imp_of_mem ?_
  exact fun ha hb ne same => ne (wf.key_inj (inside _ ha) (inside _ hb) same)

theorem WellFormed.pointed_of_mem (wf : h.WellFormed) (lt : root < h.size) {m : Member}
    (hm : m ∈ h.members (h.preorder root) pads) : m.Pointed := by
  obtain ⟨node, inside⟩ := wf.node_of_mem lt hm
  rw [Member.Pointed, node]
  exact wf.pointed inside

/-- The members of a cloud are separate, whatever their padding, if their numbers are words. -/
theorem WellFormed.separate (wf : h.WellFormed) (lt : root < h.size)
    (length : pads.length = (h.preorder root).length)
    (words : ∀ m ∈ h.members (h.preorder root) pads, m.node.isDefined = true → m.InWords) :
    Separate (h.members (h.preorder root) pads) where
  keys := wf.distinctKeys lt length
  fits m hm defined := ⟨wf.pointed_of_mem lt hm, words m hm defined⟩

end Hierarchy

/-! ## Tables -/

/-- No slot but filler stands in a table twice. -/
def EntriesOnce (slots : List Slot) : Prop := slots.Pairwise fun a b => a = b → a = .dummy

theorem EntriesOnce.idxOf?_eq {slots : List Slot} (once : EntriesOnce slots) {p : Nat} {m : Member}
    {i : Nat} (hp : slots[p]? = some (m.entry i)) : slots.idxOf? (m.entry i) = some p := by
  obtain ⟨lt, eq⟩ := List.getElem?_eq_some_iff.mp hp
  refine List.idxOf?_eq_some_iff.mpr ⟨lt, eq, fun j before same => ?_⟩
  have filler := List.pairwise_iff_getElem.mp once j p (by omega) lt before (same.trans eq.symm)
  exact m.entry_ne_dummy i (same.symm.trans filler)

/-- A table holds the slots of the defined members and filler, and nothing else. It holds
the slot at offset `i` of the member at place `k` at `place k i`. Address points stand in
the order of the members, at multiples of the alignment (`aligned`, `preordered`), and
between them no other slot stands at one (`level`). A slot that all members up to a later
one have is moved equally far from the address points of the first and the last
(`carried`). -/
structure Arranges (members : List Member) (table : Arrangement) (place : Nat → Nat → Nat) :
    Prop where
  once : EntriesOnce table.slots
  only : ∀ s ∈ table.slots, s ≠ .dummy →
    ∃ m ∈ members, m.node.isDefined = true ∧ ∃ i < m.extent, s = m.entry i
  placed : ∀ (k : Nat) (m : Member), members[k]? = some m → m.node.isDefined = true →
    ∀ i < m.extent, table.slots[place k i]? = some (m.entry i)
  ascending : ∀ (k : Nat) (m : Member), members[k]? = some m → m.node.isDefined = true →
    ∀ i j, i < j → j < m.extent → place k i < place k j
  positive : ∀ m ∈ members, m.node.isDefined = true → 0 < table.alignment
  aligned : ∀ (k : Nat) (m : Member), members[k]? = some m → m.node.isDefined = true →
    table.alignment ∣ place k m.before
  preordered : ∀ (k l : Nat) (m m' : Member), k < l → members[k]? = some m →
    members[l]? = some m' → m.node.isDefined = true → m'.node.isDefined = true →
    place k m.before < place l m'.before
  carried : ∀ (k l : Nat) (m m' : Member), k < l → members[k]? = some m →
    members[l]? = some m' → m.node.isDefined = true → m'.node.isDefined = true →
    (∀ (j : Nat) (x : Member), k ≤ j → j ≤ l → members[j]? = some x → m.FitsIn x) →
    ∀ i < m.extent, (place l (m'.before - m.before + i) : Int) - place l m'.before =
      place k i - place k m.before
  level : ∀ (j k l : Nat) (x m m' : Member), members[j]? = some x → members[k]? = some m →
    members[l]? = some m' → x.node.isDefined = true → m.node.isDefined = true →
    m'.node.isDefined = true → ∀ i < x.extent, table.alignment ∣ place j i →
    place k m.before ≤ place j i → place j i ≤ place l m'.before → i = x.before

namespace Arranges

variable {members : List Member} {table : Arrangement} {place : Nat → Nat → Nat}

theorem positions_eq (arr : Arranges members table place) {k : Nat} {m : Member}
    (hm : members[k]? = some m) (defined : m.node.isDefined = true) :
    m.positions table.slots = (List.range m.extent).map (place k) := by
  rw [Member.positions_eq, Member.entries, List.filterMap_map, ← List.filterMap_eq_map]
  refine List.filterMap_congr fun i hi => ?_
  exact arr.once.idxOf?_eq (arr.placed k m hm defined i (List.mem_range.mp hi))

theorem le_place (arr : Arranges members table place) {k : Nat} {m : Member}
    (hm : members[k]? = some m) (defined : m.node.isDefined = true) :
    ∀ i < m.extent, i ≤ place k i := by
  intro i
  induction i with
  | zero => exact fun _ => Nat.zero_le _
  | succ i ih =>
    intro inside
    have below := ih (by omega)
    have next := arr.ascending k m hm defined i (i + 1) (Nat.lt_succ_self i) inside
    omega

theorem extent_le_length (arr : Arranges members table place) {k : Nat} {m : Member}
    (hm : members[k]? = some m) (defined : m.node.isDefined = true) :
    m.extent ≤ table.slots.length := by
  rcases Nat.eq_zero_or_pos m.extent with none | some
  · omega
  · have placed := arr.placed k m hm defined (m.extent - 1) (by omega)
    have within := (List.getElem?_eq_some_iff.mp placed).1
    have far := arr.le_place hm defined (m.extent - 1) (by omega)
    omega

end Arranges

namespace Diamond

/-- One number of padding slots for each node, some of them more than its edges ask for. -/
theorem length_padding : [0, 3, 1, 2].length = (hierarchy.preorder 0).length := by decide +kernel

theorem inWords_padding : ∀ m ∈ hierarchy.members (hierarchy.preorder 0) [0, 3, 1, 2],
    m.node.isDefined = true → m.InWords := by decide +kernel

end Diamond

end VtableCloud
