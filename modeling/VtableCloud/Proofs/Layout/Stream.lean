import VtableCloud.Layouts.Basic
import VtableCloud.Proofs.Arrangement.Interleaved
import VtableCloud.Proofs.Arrangement.Ordered
import VtableCloud.Proofs.Hierarchy.Monotone
import VtableCloud.Proofs.Layout.Faithful

/-!
# The check of the slots of a table

The check looks for the first position of every slot of every defined member. It is exact: it
accepts just the tables that are faithful and, if they are to be ordered, hold each member in a row.
The arrangements of both strategies are among them.

* `slotsViolation?_located_iff`, `FirstPlaces.memberError?_none_iff`: what its two stages find;
* `checkStream_iff`: which tables are accepted;
* `Strategy.place`, `arranges_arrange`: where a strategy puts the slots of its members;
* `checkStream_arrange`: the arrangement of separate members is accepted;
* `arrangements_accepted`: so are both arrangements of any cloud.
-/

namespace VtableCloud

/-! ## What the check finds -/

theorem slotsViolation?_none_iff {located : List Located} {slots : List Slot} :
    ∀ {position : Nat}, slotsViolation? located position slots = none ↔
      ∀ (p : Nat) (s : Slot), slots[p]? = some s →
        slotViolation? located (position + p) s = none := by
  induction slots with
  | nil => simp [slotsViolation?]
  | cons s slots ih =>
    intro position
    rw [slotsViolation?]
    constructor
    · intro none p t ht
      cases found : slotViolation? located position s with
      | some violation => simp [found] at none
      | none =>
        rw [found] at none
        cases p with
        | zero =>
          obtain rfl : s = t := by simpa using ht
          exact found
        | succ p =>
          have later := ih.mp none p t (by simpa using ht)
          rwa [Nat.add_right_comm] at later
    · intro each
      have first := each 0 s rfl
      rw [Nat.add_zero] at first
      rw [first]
      refine ih.mpr fun p t ht => ?_
      have later := each (p + 1) t (by simpa using ht)
      rwa [← Nat.add_assoc, Nat.add_right_comm] at later

section

variable {members : List Member} {slots : List Slot}

@[simp] theorem Located.member_ofMember (slots : List Slot) (m : Member) :
    (Located.ofMember slots m).member = m := rfl

theorem find?_located (key : SubVtableKey) :
    (members.map (Located.ofMember slots)).find? (·.member.key == key) =
      (members.find? (·.key == key)).map (Located.ofMember slots) :=
  List.find?_map ..

/-- Every slot but filler is one of a defined member and stands where the table holds it first. -/
def FirstPlaces (members : List Member) (slots : List Slot) : Prop :=
  ∀ (p : Nat) key index, slots[p]? = some (.entry key index) →
    ∃ m ∈ members, m.key = key ∧ m.node.isDefined = true ∧ m.Owns index ∧
      slots.idxOf? (.entry key index) = some p

/-- What is looked at in a slot with the key of a member. -/
theorem slotViolation?_member (keys : DistinctKeys members) {m : Member} (hm : m ∈ members)
    (p : Nat) (index : Int) :
    slotViolation? (members.map (Located.ofMember slots)) p (.entry m.key index) =
      if m.node.isDefined = false then some (m.key, Violation.undefinedPlaced)
      else if index < m.first ∨ (m.node.last : Int) < index then
        some (m.key, .outside index m.first m.node.last)
      else ((Located.ofMember slots m).before? (index - m.first).toNat p).map fun previous =>
        (m.key, .placedTwice index previous p) := by
  rw [slotViolation?, find?_located, keys.find?_key hm, Option.map_some]
  rfl

/-- A slot with the key of a member is not at fault if the member is defined and has it, and it
stands there for the first time. -/
theorem slotViolation?_member_iff (sep : Separate members) {m : Member} (hm : m ∈ members)
    {p : Nat} {index : Int} (here : slots[p]? = some (.entry m.key index)) :
    slotViolation? (members.map (Located.ofMember slots)) p (.entry m.key index) = none ↔
      m.node.isDefined = true ∧ m.Owns index ∧ slots.idxOf? (.entry m.key index) = some p := by
  obtain ⟨q, le, first⟩ := idxOf?_le here
  rw [slotViolation?_member sep.keys hm]
  by_cases defined : m.node.isDefined = true
  · have own := sep.fits m hm defined
    have low := own.first_eq
    rw [if_neg (by simp [defined])]
    by_cases owns : m.Owns index
    · obtain ⟨i, lt, rfl⟩ := own.owns_iff.mp owns
      obtain ⟨lo, hi⟩ := owns
      have offset : (m.first + (i : Int) - m.first).toNat = i := by omega
      have entry : slots.idxOf? (m.entry i) = some q := first
      rw [if_neg (by omega), offset, Located.before?_ofMember defined lt, entry, first]
      constructor
      · intro none
        have late : ¬ q < p := by simpa using none
        obtain rfl : q = p := by omega
        exact ⟨defined, ⟨lo, hi⟩, rfl⟩
      · rintro ⟨-, -, same⟩
        obtain rfl := Option.some.inj same
        simp
    · rw [if_pos (by rw [Member.Owns] at owns; omega)]
      exact iff_of_false (Option.some_ne_none _) fun own => owns own.2.1
  · rw [if_pos (by simpa using defined)]
    exact iff_of_false (Option.some_ne_none _) fun own => defined own.1

theorem slotViolation?_entry_iff (sep : Separate members) {p : Nat} {key : SubVtableKey}
    {index : Int} (here : slots[p]? = some (.entry key index)) :
    slotViolation? (members.map (Located.ofMember slots)) p (.entry key index) = none ↔
      ∃ m ∈ members, m.key = key ∧ m.node.isDefined = true ∧ m.Owns index ∧
        slots.idxOf? (.entry key index) = some p := by
  constructor
  · intro none
    cases found : members.find? (·.key == key) with
    | none =>
      rw [slotViolation?, find?_located, found] at none
      cases none
    | some m =>
      have hm := List.mem_of_find?_eq_some found
      have same := List.find?_some found
      obtain rfl : m.key = key := beq_iff_eq.mp same
      exact ⟨m, hm, rfl, (slotViolation?_member_iff sep hm here).mp none⟩
  · rintro ⟨m, hm, rfl, owned⟩
    exact (slotViolation?_member_iff sep hm here).mpr owned

/-- No slot is at fault if each stands where it is found. -/
theorem slotsViolation?_located_iff (sep : Separate members) :
    slotsViolation? (members.map (Located.ofMember slots)) 0 slots = none ↔
      FirstPlaces members slots := by
  rw [slotsViolation?_none_iff]
  constructor
  · intro each p key index here
    have none := each p _ here
    rw [Nat.zero_add] at none
    exact (slotViolation?_entry_iff sep here).mp none
  · intro first p s here
    rw [Nat.zero_add]
    cases s with
    | dummy => rfl
    | entry key index => exact (slotViolation?_entry_iff sep here).mpr (first p key index here)

/-- Every slot of the member is found where it stands. -/
theorem FirstPlaces.own (first : FirstPlaces members slots) (sep : Separate members) {m : Member}
    (hm : m ∈ members) (p : Nat) (index : Int) (here : slots[p]? = some (.entry m.key index)) :
    m.Owns index ∧ slots.idxOf? (.entry m.key index) = some p := by
  obtain ⟨m', hm', same, -, owns, found⟩ := first p _ index here
  obtain rfl := sep.keys.eq_of_key hm' hm same
  exact ⟨owns, found⟩

theorem increasing_iff {positions : List Nat} :
    increasing positions = true ↔ positions.Pairwise (· < ·) := by
  rw [← List.isChain_iff_pairwise, isChain_iff_zip, increasing, List.all_eq_true]
  simp only [decide_eq_true_eq]

/-- The positions noted for the member are as many as its slots and increase, just if the member
has its slots at some positions in order. -/
theorem FirstPlaces.placed_iff (first : FirstPlaces members slots) (sep : Separate members)
    {m : Member} (hm : m ∈ members) (defined : m.node.isDefined = true) :
    (m.positions slots).length = m.extent ∧ increasing (m.positions slots) = true ↔
      ∃ place, m.Placed slots place := by
  constructor
  · rintro ⟨length, ascending⟩
    have found : ∀ i < m.extent, slots.idxOf? (m.entry i) = some (slots.idxOf (m.entry i)) := by
      rw [Member.positions_eq, List.length_filterMap_eq_countP] at length
      have all := List.countP_eq_length.mp (length.trans (by simp [Member.entries]))
      intro i lt
      obtain ⟨q, first⟩ :=
        Option.isSome_iff_exists.mp (all (m.entry i) (Member.mem_entries.mpr ⟨i, lt, rfl⟩))
      obtain ⟨inside, eq, -⟩ := List.idxOf?_eq_some_iff.mp first
      exact idxOf?_of_mem (eq ▸ List.getElem_mem inside)
    have positions : m.positions slots =
        (List.range m.extent).map fun i => slots.idxOf (m.entry i) := by
      rw [Member.positions_eq, Member.entries, List.filterMap_map, ← List.filterMap_eq_map]
      exact List.filterMap_congr fun i hi => found i (List.mem_range.mp hi)
    refine ⟨fun i => slots.idxOf (m.entry i), fun i lt => ?_, fun p index hp => ?_, ?_⟩
    · obtain ⟨inside, eq, -⟩ := List.idxOf?_eq_some_iff.mp (found i lt)
      exact List.getElem?_eq_some_iff.mpr ⟨inside, eq⟩
    · obtain ⟨owns, own⟩ := first.own sep hm p index hp
      obtain ⟨i, lt, rfl⟩ := (sep.fits m hm defined).owns_iff.mp owns
      exact ⟨i, lt, rfl, Option.some.inj (own.symm.trans (found i lt))⟩
    · intro i j lt inside
      rw [increasing_iff, positions, List.pairwise_map] at ascending
      have := List.pairwise_iff_getElem.mp ascending i j (by simp; omega) (by simp; omega) lt
      simpa using this
  · rintro ⟨place, placed⟩
    rw [placed.positions_eq, increasing_iff, List.pairwise_map]
    refine ⟨by simp, List.pairwise_lt_range.imp_of_mem fun _ hj lt => ?_⟩
    exact placed.ascending _ _ lt (List.mem_range.mp hj)

theorem orderedError?_none_iff {root : String} {m : Member} {alignment : Nat}
    {place : Nat → Nat} (fits : m.Fits) (placed : m.Placed slots place) :
    orderedError? root alignment m (m.positions slots) = none ↔
      m.Contiguous slots ∧ m.Aligned ⟨slots, alignment⟩ := by
  have within := fits.before_lt
  have first : 0 < m.extent := by omega
  have last : m.extent - 1 < m.extent := by omega
  have before : unsignedWord m.before = m.before :=
    unsignedWord_of_lt (Nat.lt_trans within fits.extent_lt)
  rw [placed.contiguous_iff, ← placed.row_iff first, placed.aligned_iff fits,
    placed.positions_eq]
  simp only [orderedError?, fits.size_eq, before, List.getElem?_map, List.getElem?_range, within,
    first, last, Option.map_some]
  split
  · rename_i scattered
    exact iff_of_false nofun fun both => scattered both.1
  · rename_i row
    split
    · rename_i none
      exact iff_of_false nofun fun both => Nat.ne_of_gt both.2.1 none
    · rename_i some
      split
      · rename_i odd
        exact iff_of_false nofun fun both => odd (Nat.mod_eq_zero_of_dvd both.2.2)
      · rename_i even
        refine iff_of_true rfl ⟨not_not.mp row, Nat.pos_of_ne_zero some, ?_⟩
        exact Nat.dvd_of_mod_eq_zero (not_not.mp even)

theorem notedPositions_ofMember {m : Member} (defined : m.node.isDefined = true) :
    notedPositions (Located.ofMember slots m).places = m.positions slots := by
  rw [Located.ofMember, if_pos defined, Member.positions]

/-- A defined member is not at fault if it has its slots at some positions in order, in an ordered
table in a row with the address point aligned. -/
theorem FirstPlaces.memberError?_none_iff (first : FirstPlaces members slots)
    (sep : Separate members) {root : String} {strategy : Strategy} {alignment : Nat} {m : Member}
    (hm : m ∈ members) (defined : m.node.isDefined = true) :
    memberError? root strategy alignment (Located.ofMember slots m) = none ↔
      (∃ place, m.Placed slots place) ∧
        (strategy = .ordered → m.Contiguous slots ∧ m.Aligned ⟨slots, alignment⟩) := by
  have own := sep.fits m hm defined
  rw [← first.placed_iff sep hm defined]
  simp only [memberError?, notedPositions_ofMember defined, Located.member_ofMember, own.size_eq]
  rw [if_pos defined]
  split
  · rename_i incomplete
    exact iff_of_false (Option.some_ne_none _) fun both => incomplete both.1.1
  · rename_i length
    split
    · rename_i disordered
      refine iff_of_false (Option.some_ne_none _) fun both => ?_
      rw [both.1.2] at disordered
      cases disordered
    · rename_i ordered
      have stands : (m.positions slots).length = m.extent ∧
          increasing (m.positions slots) = true :=
        ⟨not_not.mp length, by simpa using ordered⟩
      obtain ⟨place, placed⟩ := (first.placed_iff sep hm defined).mp stands
      cases strategy with
      | interleaved =>
        refine iff_of_true rfl ⟨stands, fun ordered => ?_⟩
        cases ordered
      | ordered =>
        rw [orderedError?_none_iff own placed]
        simp [stands]

end

/-- A table is faithful if its slots stand where they are found and each defined member has its
slots at some positions in order. -/
theorem faithful_iff_firstPlaces {members : List Member} {slots : List Slot}
    (sep : Separate members) :
    Faithful members slots ↔ FirstPlaces members slots ∧
      ∀ m ∈ members, m.node.isDefined = true → ∃ place, m.Placed slots place := by
  rw [faithful_iff sep]
  constructor
  · rintro ⟨owned, placed⟩
    refine ⟨fun p key index here => ?_, placed⟩
    obtain ⟨m, hm, rfl, defined⟩ := owned key index (List.mem_of_getElem? here)
    obtain ⟨place, placed⟩ := placed m hm defined
    obtain ⟨i, lt, rfl, rfl⟩ := placed.only p index here
    have owns := (sep.fits m hm defined).owns_iff.mpr ⟨i, lt, rfl⟩
    exact ⟨m, hm, rfl, defined, owns, placed.idxOf?_eq lt⟩
  · rintro ⟨first, placed⟩
    refine ⟨fun key index listed => ?_, placed⟩
    obtain ⟨p, here⟩ := List.mem_iff_getElem?.mp listed
    obtain ⟨m, hm, same, defined, -⟩ := first p key index here
    exact ⟨m, hm, same, defined⟩

/-- The check goes through its two stages. -/
theorem checkStream_stages {members : List Member} {root : String} {strategy : Strategy}
    {table : Arrangement} :
    checkStream root strategy members table = .ok () ↔
      slotsViolation? (members.map (Located.ofMember table.slots)) 0 table.slots = none ∧
        ∀ m ∈ members,
          memberError? root strategy table.alignment (Located.ofMember table.slots m) = none := by
  have accepted : checkStream root strategy members table = .ok () ↔
      streamError? root strategy members table = none := by
    rw [checkStream]
    cases streamError? root strategy members table <;> simp
  rw [accepted]
  simp only [streamError?]
  split
  · rename_i found
    simp [found]
  · rename_i none
    simp [none, List.findSome?_eq_none_iff]

/-- The check of a table finds nothing wrong just if the table is faithful and, where it has to
be, in rows. -/
theorem checkStream_iff {members : List Member} (sep : Separate members) {root : String}
    {strategy : Strategy} {table : Arrangement} :
    checkStream root strategy members table = .ok () ↔
      Faithful members table.slots ∧ (strategy = .ordered → InRows members table) := by
  have each (first : FirstPlaces members table.slots) (m : Member) (hm : m ∈ members) :
      memberError? root strategy table.alignment (Located.ofMember table.slots m) = none ↔
        (m.node.isDefined = true → (∃ place, m.Placed table.slots place) ∧
          (strategy = .ordered → m.Contiguous table.slots ∧ m.Aligned table)) := by
    by_cases defined : m.node.isDefined = true
    · rw [first.memberError?_none_iff sep hm defined]
      simp [defined]
    · simp [memberError?, Located.ofMember, defined]
  rw [checkStream_stages, slotsViolation?_located_iff sep, faithful_iff_firstPlaces sep]
  constructor
  · rintro ⟨first, members⟩
    refine ⟨⟨first, fun m hm defined => ?_⟩, fun ordered m hm defined => ?_⟩
    · exact ((each first m hm).mp (members m hm) defined).1
    · exact ((each first m hm).mp (members m hm) defined).2 ordered
  · rintro ⟨⟨first, placed⟩, rows⟩
    refine ⟨first, fun m hm => (each first m hm).mpr fun defined => ?_⟩
    exact ⟨placed m hm defined, fun ordered => rows ordered m hm defined⟩

/-! ## Arrangements -/

/-- The position at which a strategy puts a slot of the member at a place. -/
def Strategy.place : Strategy → List Member → Nat → Nat → Nat
  | ordered => orderedPlace
  | interleaved => interleavedPlace

theorem Strategy.table_ok {members : List Member} {strategy : Strategy} {table : Arrangement} :
    strategy.table members = .ok table ↔
      strategy.fails members = false ∧ table = strategy.arrange members := by
  rw [Strategy.table]
  split
  · simp [*]
  · simp [*, eq_comm]

theorem arranges_arrange {members : List Member} (sep : Separate members) {strategy : Strategy}
    (succeeds : strategy.fails members = false) :
    Arranges members (strategy.arrange members) (strategy.place members) := by
  cases strategy with
  | ordered => exact arranges_ordered sep succeeds
  | interleaved => exact arranges_interleaved sep

/-- In an ordered table the slots of a member stand in a row. -/
theorem Strategy.place_ordered (members : List Member) (k i : Nat) :
    ordered.place members k i = ordered.place members k 0 + i := by
  simp [place, orderedPlace]

namespace Arranges

variable {members : List Member} {table : Arrangement} {place : Nat → Nat → Nat}

theorem placed_member (arr : Arranges members table place) (sep : Separate members) {k : Nat}
    {m : Member} (hm : members[k]? = some m) (defined : m.node.isDefined = true) :
    m.Placed table.slots (place k) where
  here i lt := arr.placed k m hm defined i lt
  only p index hp := by
    obtain ⟨m', hm', -, i, lt, eq⟩ := arr.only _ (List.mem_of_getElem? hp) nofun
    obtain ⟨same, rfl⟩ := Slot.entry.inj eq
    obtain rfl := sep.keys.eq_of_key hm' (List.mem_of_getElem? hm) same.symm
    have found := arr.once.idxOf?_eq (arr.placed k m' hm defined i lt)
    have here := arr.once.idxOf?_eq (m := m') (i := i) hp
    exact ⟨i, lt, rfl, Option.some.inj (here.symm.trans found)⟩
  ascending i j lt inside := arr.ascending k m hm defined i j lt inside

theorem faithful (arr : Arranges members table place) (sep : Separate members) :
    Faithful members table.slots := by
  refine (faithful_iff sep).mpr ⟨fun key index listed => ?_, fun m hm defined => ?_⟩
  · obtain ⟨m, hm, defined, i, -, eq⟩ := arr.only _ listed nofun
    exact ⟨m, hm, (Slot.entry.inj eq).1.symm, defined⟩
  · obtain ⟨k, hk⟩ := List.mem_iff_getElem?.mp hm
    exact ⟨place k, arr.placed_member sep hk defined⟩

theorem inRows (arr : Arranges members table place) (sep : Separate members)
    (row : ∀ k i, place k i = place k 0 + i) : InRows members table := by
  intro m hm defined
  obtain ⟨k, hk⟩ := List.mem_iff_getElem?.mp hm
  have placed := arr.placed_member sep hk defined
  refine ⟨placed.contiguous_iff.mpr fun i _ => row k i, ?_⟩
  exact (placed.aligned_iff (sep.fits m hm defined)).mpr
    ⟨arr.positive m hm defined, arr.aligned k m hk defined⟩

end Arranges

/-- The ordered arrangement holds each member in a row. -/
theorem inRows_ordered {members : List Member} (sep : Separate members)
    (succeeds : orderedFails members = false) : InRows members (ordered members) :=
  (arranges_ordered sep succeeds).inRows sep (Strategy.place_ordered members)

/-- The arrangement of separate members is accepted, whatever their padding. -/
theorem checkStream_arrange {members : List Member} (sep : Separate members) (root : String)
    {strategy : Strategy} (succeeds : strategy.fails members = false) :
    checkStream root strategy members (strategy.arrange members) = .ok () := by
  refine (checkStream_iff sep).mpr ⟨(arranges_arrange sep succeeds).faithful sep, ?_⟩
  rintro rfl
  exact inRows_ordered sep succeeds

/-- Whatever padding a cloud is given, as long as its numbers are words, its interleaved table is
accepted, and so is its ordered table if there is an alignment: they hold the defined members
faithfully, the ordered one in rows. -/
theorem arrangements_accepted {records : List ClassRecord} {h : Hierarchy}
    (ingested : Hierarchy.ofRecords records = .ok h) {root : NodeId} (lt : root < h.size)
    {pads : List Nat} (length : pads.length = (h.preorder root).length)
    (words : ∀ m ∈ h.members (h.preorder root) pads, m.node.isDefined = true → m.InWords)
    (name : String) :
    let members := h.members (h.preorder root) pads
    ((∀ m ∈ members, m.node.isDefined = true → 0 < orderedAlignment members) →
      Strategy.ordered.table members = .ok (ordered members) ∧
      checkStream name .ordered members (ordered members) = .ok () ∧
        Faithful members (ordered members).slots ∧ InRows members (ordered members)) ∧
    Strategy.interleaved.table members = .ok (interleaved members) ∧
    checkStream name .interleaved members (interleaved members) = .ok () ∧
      Faithful members (interleaved members).slots := by
  intro members
  have sep : Separate members :=
    (Hierarchy.wellFormed_of_ofRecords ingested).separate lt length words
  refine ⟨fun aligns => ?_, rfl, checkStream_arrange sep name rfl,
    (arranges_interleaved sep).faithful sep⟩
  have succeeds := orderedFails_eq_false_iff.mpr aligns
  refine ⟨Strategy.table_ok.mpr ⟨succeeds, rfl⟩, checkStream_arrange sep name succeeds, ?_,
    inRows_ordered sep succeeds⟩
  exact (arranges_ordered sep succeeds).faithful sep

/-- Both tables of the diamond are accepted with padding that its edges do not ask for. -/
theorem padded_diamond_accepted :
    [0, 3, 1, 2].length = (Diamond.hierarchy.preorder 0).length ∧
    let members := Diamond.hierarchy.members (Diamond.hierarchy.preorder 0) [0, 3, 1, 2]
    (∀ m ∈ members, m.node.isDefined = true → m.InWords) ∧
    checkStream "Base" .ordered members (ordered members) = .ok () ∧
    checkStream "Base" .interleaved members (interleaved members) = .ok () := by
  obtain ⟨inRows, -, interleaved, -⟩ := arrangements_accepted Diamond.ofRecords_records
    Diamond.size_pos Diamond.length_padding Diamond.inWords_padding "Base"
  exact ⟨Diamond.length_padding, Diamond.inWords_padding, (inRows (by decide +kernel)).2.1,
    interleaved⟩

/-- The padding of the leaf below a far base has neither table accepted. -/
theorem deep_padding_refused :
    Hierarchy.ofRecords Deep.records = .ok Deep.hierarchy ∧
    [0, 9223372036854775809].length = (Deep.hierarchy.preorder 0).length ∧
    let members := Deep.hierarchy.members (Deep.hierarchy.preorder 0) [0, 9223372036854775809]
    Strategy.ordered.table members = .error (.fault .zeroDivisor) ∧
    checkStream "Base" .interleaved members (interleaved members) =
      .error (.invariantViolation "Base" (.primary "Leaf") (.outside 0 9223372036854775807 0)) :=
  ⟨Deep.ofRecords_records, by decide +kernel, by decide +kernel, by decide +kernel⟩

end VtableCloud
