import VtableCloud.Proofs.Arrangement.Interleaved
import VtableCloud.Proofs.Hierarchy.Monotone

/-!
# The order of the slots of an interleaved table

Each slot of each defined member is one turn of the member. An interleaved table holds the slots
of all turns in lexicographic order, by their distance from the address point and then by the
place of the member.

* `Enumerates.unique`: no more than one list enumerates the turns of a cloud;
* `enumerates_turns`, `map_slot_turns`: the turns round by round, and their slots;
* `interleaved_points`: the address points stand side by side, in preorder;
* `interleaved_lexicographic`: the interleaved table of a cloud, whatever its padding.
-/

namespace VtableCloud

/-- One slot of the member at a place of the preorder. -/
structure Turn where
  place : Nat
  member : Member
  index : Int

namespace Turn

variable {a b : Turn}

/-- The slot that the turn puts into the table. -/
def slot (t : Turn) : Slot := .entry t.member.key t.index

/-- How far the slot lies after the address point of its member. -/
def distance (t : Turn) : Int := t.index - t.member.node.addressPoint

/-- The slot is one of a defined member, or of the padding in front of it. -/
structure Of (members : List Member) (t : Turn) : Prop where
  place : members[t.place]? = some t.member
  defined : t.member.node.isDefined = true
  first_le : (t.member.node.start : Int) - t.member.pad ≤ t.index
  le_last : t.index ≤ t.member.node.last

/-- One turn comes before another that is farther along, and of two at one distance the one
whose member comes first in the preorder. -/
def Before (a b : Turn) : Prop :=
  a.distance < b.distance ∨ a.distance = b.distance ∧ a.place < b.place

theorem Before.asymm (first : a.Before b) : ¬ b.Before a := by
  rintro (less | ⟨same, less⟩)
  · rcases first with less' | ⟨same', -⟩
    · omega
    · omega
  · rcases first with less' | ⟨-, less'⟩
    · omega
    · omega

theorem Before.ne (before : a.Before b) : a ≠ b := by
  rintro rfl
  exact before.asymm before

/-- The member of a turn reaches as far as the turn. -/
theorem Of.reaches {members : List Member} {t : Turn} (of : t.Of members)
    (fits : t.member.Fits) : t.member.reaches t.distance = true := by
  have first := fits.first_eq
  have point := fits.addressPoint_eq
  have last := fits.last_eq
  have extent := fits.extent_eq
  have lo := of.first_le
  have hi := of.le_last
  rw [Member.reaches_iff, Turn.distance]
  exact ⟨of.defined, by omega, by omega⟩

end Turn

/-- The list holds the turns of all defined members in lexicographic order. The order is strict,
so that no turn occurs twice. -/
structure Enumerates (members : List Member) (turns : List Turn) : Prop where
  mem_iff : ∀ t, t ∈ turns ↔ t.Of members
  sorted : turns.Pairwise Turn.Before

namespace Enumerates

variable {members : List Member} {turns others : List Turn}

theorem nodup (enum : Enumerates members turns) : turns.Nodup :=
  enum.sorted.imp fun {_ _} before => before.ne

/-- No more than one list enumerates the turns of a cloud. -/
theorem unique (enum : Enumerates members turns) (other : Enumerates members others) :
    turns = others := by
  have same : turns.Perm others := by
    rw [List.perm_ext_iff_of_nodup enum.nodup other.nodup]
    intro t
    rw [enum.mem_iff, other.mem_iff]
  refine same.eq_of_pairwise (fun a b _ _ before after => ?_) enum.sorted other.sorted
  exact absurd after before.asymm

/-- Different turns put different slots into the table. -/
theorem nodup_slots (enum : Enumerates members turns) (sep : Separate members) :
    (turns.map Turn.slot).Nodup := by
  rw [List.nodup_iff_pairwise_ne, List.pairwise_map]
  refine enum.sorted.imp_of_mem fun {a b} ha hb before same => ?_
  obtain ⟨key, index⟩ := Slot.entry.inj same
  have ofA := (enum.mem_iff a).mp ha
  have ofB := (enum.mem_iff b).mp hb
  have place := sep.keys.place_of_key ofA.place ofB.place key
  have member :=
    sep.keys.eq_of_key (List.mem_of_getElem? ofA.place) (List.mem_of_getElem? ofB.place) key
  rcases before with less | ⟨-, less⟩
  · rw [Turn.distance, Turn.distance, member, index] at less
    exact Int.lt_irrefl _ less
  · exact Nat.ne_of_lt less place

end Enumerates

variable {members : List Member}

/-- The turn of a member at a distance from its address point. -/
def Member.turn (m : Member) (k : Nat) (distance : Int) : Turn :=
  ⟨k, m, (m.node.addressPoint : Int) + distance⟩

@[simp] theorem Member.distance_turn (m : Member) (k : Nat) (distance : Int) :
    (m.turn k distance).distance = distance := by
  show (m.node.addressPoint : Int) + distance - m.node.addressPoint = distance
  omega

theorem Turn.turn_distance (t : Turn) : t.member.turn t.place t.distance = t := by
  have index : (t.member.node.addressPoint : Int) + t.distance = t.index := by
    rw [Turn.distance]
    omega
  rw [Member.turn, index]

/-- The turns at a distance from the address points. -/
def turnsAt (members : List Member) (distance : Int) : List Turn :=
  (members.zipIdx.filter (·.1.reaches distance)).map fun (m, k) => m.turn k distance

theorem map_slot_turnsAt (distance : Int) :
    (turnsAt members distance).map Turn.slot = roundAt members distance := by
  conv_rhs => rw [roundAt, ← List.zipIdx_map_fst 0 members, List.filter_map, List.map_map]
  rw [turnsAt, List.map_map]
  rfl

theorem mem_turnsAt (fits : ∀ m ∈ members, m.node.isDefined = true → m.Fits) {t : Turn}
    {distance : Int} :
    t ∈ turnsAt members distance ↔ t.Of members ∧ t.distance = distance := by
  simp only [turnsAt, List.mem_map, List.mem_filter, List.mem_zipIdx_iff_getElem?, Prod.exists]
  constructor
  · rintro ⟨m, k, ⟨hm, reaches⟩, rfl⟩
    obtain ⟨defined, lo, hi⟩ := Member.reaches_iff.mp reaches
    have own := fits m (List.mem_of_getElem? hm) defined
    have first := own.first_eq
    have point := own.addressPoint_eq
    have last := own.last_eq
    have extent := own.extent_eq
    refine ⟨⟨hm, defined, ?_, ?_⟩, ?_⟩
    · show (m.node.start : Int) - m.pad ≤ m.node.addressPoint + distance
      omega
    · show m.node.addressPoint + distance ≤ (m.node.last : Int)
      omega
    · exact m.distance_turn k distance
  · rintro ⟨of, rfl⟩
    have own := fits _ (List.mem_of_getElem? of.place) of.defined
    exact ⟨t.member, t.place, ⟨of.place, of.reaches own⟩, t.turn_distance⟩

/-- The turns of all rounds, the farthest before the address points first. -/
def turns (members : List Member) : List Turn :=
  (List.range (Direction.backward.count members + Direction.forward.count members)).flatMap
    fun r : Nat => turnsAt members ((r : Int) - Direction.backward.count members)

theorem map_slot_turns (fits : ∀ m ∈ members, m.node.isDefined = true → m.Fits) :
    (turns members).map Turn.slot = (interleaved members).slots := by
  rw [interleaved_slots fits, turns, roundsUpTo, List.map_flatMap]
  exact List.flatMap_congr fun r _ => map_slot_turnsAt _

/-- Within a round members come in the order of their places, and rounds come in the order of
their distances. -/
theorem enumerates_turns (fits : ∀ m ∈ members, m.node.isDefined = true → m.Fits) :
    Enumerates members (turns members) := by
  constructor
  · intro t
    simp only [turns, List.mem_flatMap, List.mem_range, mem_turnsAt fits]
    constructor
    · rintro ⟨r, -, of, -⟩
      exact of
    · intro of
      have member := List.mem_of_getElem? of.place
      have bounds := reaches_bounds member (of.reaches (fits _ member of.defined))
      refine ⟨(Direction.backward.count members + t.distance).toNat, ?_, of, ?_⟩
      · omega
      · omega
  · rw [turns, List.pairwise_flatMap]
    constructor
    · intro r _
      rw [turnsAt, List.pairwise_map]
      refine List.Pairwise.filter _ ?_
      have places : members.zipIdx.Pairwise fun x y => x.2 < y.2 := by
        rw [← List.pairwise_map, List.zipIdx_map_snd]
        exact List.pairwise_lt_range'
      exact places.imp fun {x y} lt => Or.inr ⟨by simp, lt⟩
    · refine List.pairwise_lt_range.imp fun {r r'} lt a ha b hb => Or.inl ?_
      rw [((mem_turnsAt fits).mp ha).2, ((mem_turnsAt fits).mp hb).2]
      omega

/-- The slots of the address points of the defined sub-vtables of a preorder. -/
def Hierarchy.pointSlots (h : Hierarchy) (preorder : List NodeId) : List Slot :=
  (preorder.filter h.isDefined).map fun id => .entry (h.key id) (h.node id).addressPoint

theorem roundAt_zero {h : Hierarchy} {preorder : List NodeId} {pads : List Nat}
    (length : pads.length = preorder.length) :
    roundAt (h.members preorder pads) 0 = h.pointSlots preorder := by
  conv_rhs => rw [Hierarchy.pointSlots, ← Hierarchy.map_id_members (h := h) length,
    List.filter_map, List.map_map]
  have node : ∀ m ∈ h.members preorder pads, m.node = h.node m.id := by
    intro m hm
    obtain ⟨k, hk⟩ := List.mem_iff_getElem?.mp hm
    exact (Hierarchy.getElem?_members hk).2.2
  have same : ∀ m ∈ h.members preorder pads, m.reaches 0 = h.isDefined m.id := by
    intro m hm
    rw [Bool.eq_iff_iff, Member.reaches_iff, Hierarchy.isDefined, node m hm]
    exact and_iff_left (by omega)
  rw [roundAt, List.filter_congr same]
  refine List.map_congr_left fun m hm => ?_
  show Slot.entry m.node.key (m.node.addressPoint + 0) = .entry (h.node m.id).key _
  rw [node m (List.mem_filter.mp hm).1, Int.add_zero]

/-- The address points make up the first round of the second half, if there is one. -/
theorem interleaved_points (fits : ∀ m ∈ members, m.node.isDefined = true → m.Fits) :
    ∃ front back, (interleaved members).slots = front ++ roundAt members 0 ++ back := by
  cases count : Direction.forward.count members with
  | zero =>
    have none : roundAt members 0 = [] := by
      by_contra some
      have := (Direction.roundAt_ne_nil_iff (d := .forward) (k := 0)).mp some
      exact Nat.not_lt_zero 0 (count ▸ this)
    exact ⟨(interleaved members).slots, [], by rw [none, List.append_nil, List.append_nil]⟩
  | succ n =>
    have halves : (interleaved members).slots =
        (Direction.backward.allRounds members).reverse.flatten ++
          (Direction.forward.allRounds members).flatten := rfl
    rw [Direction.allRounds_eq (d := .forward) fits, count, List.range_succ_eq_map,
      List.map_cons, List.flatten_cons, ← List.append_assoc] at halves
    exact ⟨_, _, halves⟩

/-- Whatever the padding of a cloud, as long as its numbers are words, its interleaved table holds
each slot of each defined member once, by its distance from the address point and then in preorder,
and no filler. The address points stand side by side. The members take turns in two loops, one for
each direction. -/
theorem interleaved_lexicographic {records : List ClassRecord} {h : Hierarchy}
    (ingested : Hierarchy.ofRecords records = .ok h) {root : NodeId} (lt : root < h.size)
    {pads : List Nat} (length : pads.length = (h.preorder root).length)
    (words : ∀ m ∈ h.members (h.preorder root) pads, m.node.isDefined = true → m.InWords) :
    let members := h.members (h.preorder root) pads
    ∃ turns, (∀ others, Enumerates members others ↔ others = turns) ∧
      interleaved members = ⟨turns.map Turn.slot, 1⟩ ∧
      (turns.map Turn.slot).Nodup ∧ Slot.dummy ∉ turns.map Turn.slot ∧
      (∃ front back, turns.map Turn.slot = front ++ h.pointSlots (h.preorder root) ++ back) ∧
      ∃ front back, Rounds .backward (Direction.backward.start members) front ∧
        Rounds .forward (Direction.forward.start members) back ∧
        turns.map Turn.slot = front.reverse.flatten ++ back.flatten := by
  intro members
  have sep := (Hierarchy.wellFormed_of_ofRecords ingested).separate lt length words
  have enum := enumerates_turns sep.fits
  refine ⟨_, fun others => ⟨fun other => other.unique enum, fun same => same ▸ enum⟩, ?_,
    enum.nodup_slots sep, ?_, ?_, ?_⟩
  · rw [map_slot_turns sep.fits]
    rfl
  · intro listed
    obtain ⟨t, -, eq⟩ := List.mem_map.mp listed
    cases eq
  · rw [map_slot_turns sep.fits, ← roundAt_zero length]
    exact interleaved_points sep.fits
  · rw [map_slot_turns sep.fits]
    exact interleaved_rounds members

/-- The interleaved table of the diamond with some padding holds the slots in this order. -/
theorem diamond_lexicographic :
    [0, 3, 1, 2].length = (Diamond.hierarchy.preorder 0).length ∧
    let members := Diamond.hierarchy.members (Diamond.hierarchy.preorder 0) [0, 3, 1, 2]
    (∀ m ∈ members, m.node.isDefined = true → m.InWords) ∧
    ∃ turns, Enumerates members turns ∧ interleaved members = ⟨turns.map Turn.slot, 1⟩ := by
  obtain ⟨turns, enum, table, -⟩ := interleaved_lexicographic Diamond.ofRecords_records
    Diamond.size_pos Diamond.length_padding Diamond.inWords_padding
  exact ⟨Diamond.length_padding, Diamond.inWords_padding, turns, (enum turns).mpr rfl, table⟩

/-- The padding that the leaf below a far base gets takes up no slot of the interleaved table. -/
theorem deep_padding_dropped :
    Hierarchy.ofRecords Deep.records = .ok Deep.hierarchy ∧
    Deep.hierarchy.preorder 0 = [0, 1] ∧
    let members := Deep.hierarchy.members (Deep.hierarchy.preorder 0) [0, 9223372036854775809]
    interleaved members = ⟨[.entry (.primary "Leaf") 0], 1⟩ ∧
    ¬ ∃ turns, Enumerates members turns ∧ interleaved members = ⟨turns.map Turn.slot, 1⟩ := by
  have table : interleaved (Deep.hierarchy.members (Deep.hierarchy.preorder 0)
      [0, 9223372036854775809]) = ⟨[.entry (.primary "Leaf") 0], 1⟩ := by decide +kernel
  refine ⟨Deep.ofRecords_records, by decide +kernel, table, ?_⟩
  rintro ⟨turns, enum, eq⟩
  obtain ⟨leaf, there, defined, start, last, pad⟩ : ∃ m,
      (Deep.hierarchy.members (Deep.hierarchy.preorder 0) [0, 9223372036854775809])[1]? = some m ∧
        m.node.isDefined = true ∧ m.node.start = 0 ∧ m.node.last = 0 ∧
          m.pad = 9223372036854775809 := ⟨_, rfl, by decide +kernel⟩
  -- The slot next to the leaf's own one is padding, and is a turn.
  have turn : (⟨1, leaf, -1⟩ : Turn) ∈ turns := by
    refine (enum.mem_iff _).mpr ⟨there, defined, ?_, ?_⟩
    · show (leaf.node.start : Int) - leaf.pad ≤ -1
      omega
    · show (-1 : Int) ≤ leaf.node.last
      omega
  have slot := List.mem_map_of_mem (f := Turn.slot) turn
  rw [table] at eq
  rw [← (Arrangement.mk.inj eq).1, List.mem_singleton] at slot
  have index : (-1 : Int) = 0 := (Slot.entry.inj slot).2
  omega

end VtableCloud
