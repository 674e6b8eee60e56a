import Mathlib.Data.List.Induction
import Mathlib.Order.Bounds.Defs
import VtableCloud.Proofs.Layout.Stream

/-!
# The ordered arrangement is the tightest in preorder

Each member starts as early as the members before it and the alignment let it. So no accepted
table with the address points in the same order, whatever its filler, has a member start earlier.

* `isLeast_orderedAlignment`: the alignment is the least power of two as wide as any member;
* `isLeast_add_alignmentGap`: the gap leads to the next multiple of the alignment;
* `Spaced.length_le`: what the members so far take up ends before any row behind theirs;
* `spaced_of_faithful`: a table in rows and in preorder leaves its members that much space;
* `ordered_tightest`: so each address point comes as early as in any such table.
-/

namespace VtableCloud

/-! ## The alignment -/

section

variable {members : List Member} (sizes : ∀ m ∈ members, m.node.width + m.pad ≤ signBit)

include sizes

/-- No smaller power of two is as wide as every member, defined or not, with its padding. -/
theorem isLeast_orderedAlignment :
    IsLeast {a | (∃ t, a = 2 ^ t) ∧ ∀ m ∈ members, m.node.width + m.pad ≤ a}
      (orderedAlignment members) := by
  constructor
  · refine ⟨?_, fun m hm => ?_⟩
    · rw [orderedAlignment_of_le sizes]
      exact exists_leastPowerOfTwo _
    · rw [← size_of_le sizes hm]
      exact size_le_orderedAlignment (orderedAlignment_pos sizes) hm
  · rintro _ ⟨⟨t, rfl⟩, wide⟩
    rw [orderedAlignment_of_le sizes]
    refine leastPowerOfTwo_le (Nat.le_of_not_lt fun more => ?_)
    rcases lt_foldl_max_iff.mp more with one | ⟨_, listed, more⟩
    · have := Nat.two_pow_pos t
      omega
    · obtain ⟨m, hm, rfl⟩ := List.mem_map.mp listed
      rw [size_of_le sizes hm] at more
      exact Nat.not_lt_of_le (wide m hm) more

end

theorem alignmentGap_lt {alignment : Nat} (pos : 0 < alignment) (position : Nat) :
    alignmentGap alignment position < alignment := by
  rw [alignmentGap]
  split
  · exact pos
  · omega

/-- Moved on by the gap, a position is at the next multiple of the alignment. -/
theorem isLeast_add_alignmentGap {alignment : Nat} (pos : 0 < alignment) (position : Nat) :
    IsLeast {p | alignment ∣ p ∧ position ≤ p} (position + alignmentGap alignment position) := by
  have next := dvd_add_alignmentGap pos position
  refine ⟨⟨next, Nat.le_add_right _ _⟩, ?_⟩
  rintro p ⟨dvd, le⟩
  obtain ⟨i, rfl⟩ := Nat.exists_eq_add_of_le le
  by_contra less
  have short := alignmentGap_lt pos position
  have same := eq_of_dvd_of_near dvd next (by omega) short
  omega

/-! ## Rows behind one another -/

/-- From the start of each defined member on there is room for its slots, with the address point
aligned and nothing of a later member. -/
structure Spaced (members : List Member) (alignment : Nat) (start : Member → Nat) : Prop where
  aligned : ∀ m ∈ members, m.node.isDefined = true → alignment ∣ start m + m.before
  apart : members.Pairwise fun m m' => m.node.isDefined = true → m'.node.isDefined = true →
    start m + m.extent ≤ start m'

/-- A member starts no later than at a place behind the members before it where its address point
would be aligned. -/
theorem orderedStart_le_of_dvd {alignment place : Nat} {earlier : List Member} {m : Member}
    (divides : alignment ∣ wordCount) (behind : (orderedFrom alignment 0 earlier).length ≤ place)
    (aligned : alignment ∣ place + m.before) : orderedStart alignment earlier m ≤ place := by
  have pos : 0 < alignment := Nat.pos_of_dvd_of_pos divides (by decide)
  have next := (isLeast_add_alignmentGap pos
    ((orderedFrom alignment 0 earlier).length + m.before)).2 ⟨aligned, by omega⟩
  simp only [orderedStart, alignmentGap_unsignedWord divides]
  omega

namespace Spaced

variable {members earlier later : List Member} {alignment : Nat} {start : Member → Nat}

theorem of_append (spaced : Spaced (earlier ++ later) alignment start) :
    Spaced earlier alignment start where
  aligned m hm := spaced.aligned m (List.mem_append_left later hm)
  apart := (List.pairwise_append.mp spaced.apart).1

theorem behind {m : Member} (spaced : Spaced (earlier ++ m :: later) alignment start)
    (defined : m.node.isDefined = true) :
    ∀ m' ∈ earlier, m'.node.isDefined = true → start m' + m'.extent ≤ start m := fun m' hm' here =>
  (List.pairwise_append.mp spaced.apart).2.2 m' hm' m (List.mem_cons_self ..) here defined

/-- If the members have room before a limit, the ordered arrangement stays before it. -/
theorem length_le (divides : alignment ∣ wordCount) (spaced : Spaced members alignment start) :
    ∀ limit, (∀ m ∈ members, m.node.isDefined = true → start m + m.extent ≤ limit) →
      (orderedFrom alignment 0 members).length ≤ limit := by
  -- The members are taken in as the table grows, so the last one comes on top of the rest.
  induction members using List.reverseRecOn with
  | nil => exact fun limit _ => Nat.zero_le limit
  | append_singleton earlier m ih =>
    intro limit room
    by_cases defined : m.node.isDefined = true
    · have own := room m (by simp) defined
      have grown := ih spaced.of_append (start m) (spaced.behind defined)
      have early := orderedStart_le_of_dvd divides grown (spaced.aligned m (by simp) defined)
      rw [length_orderedFrom_snoc alignment earlier defined]
      omega
    · have same := ih spaced.of_append limit fun m' hm' => room m' (by simp [hm'])
      rw [orderedFrom_append]
      simpa [orderedFrom, defined] using same

theorem orderedStart_le {m : Member} (divides : alignment ∣ wordCount)
    (spaced : Spaced (earlier ++ m :: later) alignment start) (defined : m.node.isDefined = true) :
    orderedStart alignment earlier m ≤ start m :=
  orderedStart_le_of_dvd divides (spaced.of_append.length_le divides _ (spaced.behind defined))
    (spaced.aligned m (by simp) defined)

end Spaced

/-! ## Tables in rows and in preorder -/

/-- The slot of the address point of the member. -/
def Member.point (m : Member) : Slot := .entry m.key m.node.addressPoint

theorem Member.Fits.point_eq {m : Member} (fits : m.Fits) : m.point = m.entry m.before := by
  rw [Member.point, entry, fits.addressPoint_eq]

/-- The address points of the defined members stand in the order of the members. -/
def InPreorder (members : List Member) (slots : List Slot) : Prop :=
  members.Pairwise fun m m' => m.node.isDefined = true → m'.node.isDefined = true →
    ∀ p q : Nat, slots[p]? = some m.point → slots[q]? = some m'.point → p < q

theorem inPreorder_iff {members : List Member} {slots : List Slot} :
    InPreorder members slots ↔ members.Pairwise fun m m' =>
      m.node.isDefined = true → m'.node.isDefined = true →
        ∀ p < slots.length, ∀ q < slots.length,
          slots[p]? = some m.point → slots[q]? = some m'.point → p < q := by
  refine List.Pairwise.iff fun m m' => ⟨fun each defined defined' p _ q _ => ?_,
    fun each defined defined' p q hp hq => ?_⟩
  · exact each defined defined' p q
  · have inside := (List.getElem?_eq_some_iff.mp hp).1
    have inside' := (List.getElem?_eq_some_iff.mp hq).1
    exact each defined defined' p inside q inside' hp hq

instance (members : List Member) (slots : List Slot) : Decidable (InPreorder members slots) :=
  decidable_of_iff _ inPreorder_iff.symm

/-- The position of the first slot of the member, padding included. -/
def Member.startIn (slots : List Slot) (m : Member) : Nat := slots.idxOf (m.entry 0)

theorem Member.Placed.row {m : Member} {slots : List Slot} {place : Nat → Nat}
    (placed : m.Placed slots place) (fits : m.Fits) (contiguous : m.Contiguous slots) :
    m.Placed slots (m.startIn slots + ·) := by
  have some : 0 < m.extent := Nat.lt_of_le_of_lt (Nat.zero_le _) fits.before_lt
  have listed := List.mem_of_getElem? (placed.here 0 some)
  have start : m.startIn slots = place 0 :=
    Option.some.inj ((idxOf?_of_mem listed).symm.trans (placed.idxOf?_eq some))
  have row := placed.contiguous_iff.mp contiguous
  refine ⟨fun i lt => ?_, fun p index here => ?_, fun i j lt _ => Nat.add_lt_add_left lt _⟩
  · rw [start, ← row i lt]
    exact placed.here i lt
  · obtain ⟨i, lt, eq, rfl⟩ := placed.only p index here
    exact ⟨i, lt, eq, by rw [start, row i lt]⟩

/-- Of two rows the one whose address point comes first ends before the other begins. -/
theorem Member.Placed.apart {m m' : Member} {slots : List Slot} {s s' : Nat}
    (placed : m.Placed slots (s + ·)) (placed' : m'.Placed slots (s' + ·)) (fits : m.Fits)
    (fits' : m'.Fits) (other : m.key ≠ m'.key) (less : s + m.before < s' + m'.before) :
    s + m.extent ≤ s' := by
  have within := fits.before_lt
  have within' := fits'.before_lt
  by_contra overlap
  -- The first row would end behind the start of the second, and both would hold this slot.
  obtain ⟨p, hp, low, high, high'⟩ : ∃ p, s ≤ p ∧ s' ≤ p ∧ p < s + m.extent ∧ p < s' + m'.extent :=
    ⟨min (s + m.extent - 1) (s' + m'.before), by omega⟩
  have here := placed.here (p - s) (by omega)
  have here' := placed'.here (p - s') (by omega)
  simp only [Nat.add_sub_cancel' hp] at here
  simp only [Nat.add_sub_cancel' low] at here'
  exact other (key_of_entry_eq (Option.some.inj (here.symm.trans here')))

section

variable {members : List Member} {table : Arrangement}

theorem Faithful.row (faithful : Faithful members table.slots) (rows : InRows members table)
    (sep : Separate members) {m : Member} (hm : m ∈ members) (defined : m.node.isDefined = true) :
    m.Placed table.slots (m.startIn table.slots + ·) := by
  obtain ⟨place, placed⟩ := faithful.placed sep hm defined
  exact placed.row (sep.fits m hm defined) (rows m hm defined).1

theorem spaced_of_faithful (faithful : Faithful members table.slots) (rows : InRows members table)
    (sep : Separate members) (inPreorder : InPreorder members table.slots) :
    Spaced members table.alignment (·.startIn table.slots) where
  aligned m hm defined :=
    (((faithful.row rows sep hm defined).aligned_iff (sep.fits m hm defined)).mp
      (rows m hm defined).2).2
  apart := by
    refine (inPreorder.and (List.pairwise_map.mp sep.keys)).imp_of_mem ?_
    rintro m m' hm hm' ⟨before, other⟩ defined defined'
    have own := sep.fits m hm defined
    have own' := sep.fits m' hm' defined'
    have placed := faithful.row rows sep hm defined
    have placed' := faithful.row rows sep hm' defined'
    refine placed.apart placed' own own' other (before defined defined' _ _ ?_ ?_)
    · exact own.point_eq ▸ placed.here _ own.before_lt
    · exact own'.point_eq ▸ placed'.here _ own'.before_lt

/-- Whichever strategy arranges them, the address points stand in preorder. -/
theorem Arranges.inPreorder {place : Nat → Nat → Nat} (arr : Arranges members table place)
    (sep : Separate members) : InPreorder members table.slots := by
  refine List.pairwise_iff_getElem.mpr fun k l hk hl lt defined defined' p q hp hq => ?_
  have at_k := List.getElem?_eq_getElem hk
  have at_l := List.getElem?_eq_getElem hl
  rw [(sep.fits _ (List.getElem_mem hk) defined).point_eq] at hp
  rw [(sep.fits _ (List.getElem_mem hl) defined').point_eq] at hq
  rw [(arr.placed_member sep at_k defined).eq_of_entry hp,
    (arr.placed_member sep at_l defined').eq_of_entry hq]
  exact arr.preordered k l _ _ lt at_k at_l defined defined'

theorem length_ordered_le (faithful : Faithful members table.slots) (rows : InRows members table)
    (sep : Separate members) (inPreorder : InPreorder members table.slots)
    (divides : orderedAlignment members ∣ wordCount)
    (same : table.alignment = orderedAlignment members) :
    (ordered members).slots.length ≤ table.slots.length := by
  have spaced := spaced_of_faithful faithful rows sep inPreorder
  rw [same] at spaced
  refine spaced.length_le divides _ fun m hm defined => ?_
  have within := (sep.fits m hm defined).before_lt
  have last := (faithful.row rows sep hm defined).here (m.extent - 1) (by omega)
  have inside := (List.getElem?_eq_some_iff.mp last).1
  omega

/-- An address point stands no later in the ordered table than in another. -/
theorem idxOf?_point_ordered_le (faithful : Faithful members table.slots)
    (rows : InRows members table) (sep : Separate members)
    (inPreorder : InPreorder members table.slots) (succeeds : orderedFails members = false)
    (same : table.alignment = orderedAlignment members) {m : Member} (hm : m ∈ members)
    (defined : m.node.isDefined = true) :
    ∃ p q, (ordered members).slots.idxOf? m.point = some p ∧
      table.slots.idxOf? m.point = some q ∧ p ≤ q := by
  obtain ⟨k, hk⟩ := List.mem_iff_getElem?.mp hm
  have own := sep.fits m hm defined
  have divides := orderedAlignment_dvd (orderedFails_eq_false_iff.mp succeeds m hm defined)
  have spaced : Spaced (members.take k ++ m :: members.drop (k + 1)) (orderedAlignment members)
      (·.startIn table.slots) := by
    rw [take_append_cons_drop hk, ← same]
    exact spaced_of_faithful faithful rows sep inPreorder
  have early := spaced.orderedStart_le divides defined
  rw [own.point_eq]
  refine ⟨orderedPlace members k m.before, m.startIn table.slots + m.before, ?_, ?_, ?_⟩
  · exact ((arranges_ordered sep succeeds).placed_member sep hk defined).idxOf?_eq own.before_lt
  · exact (faithful.row rows sep hm defined).idxOf?_eq own.before_lt
  · rw [orderedPlace_eq hk]
    exact Nat.add_le_add_right early _

end

/-- Whatever padding a cloud is given, as long as its numbers are words and no member is wider than
the greatest power of two, its ordered table has the least alignment that suits all its members. Its
address points stand in preorder, and no other table with this alignment that is accepted as ordered
and has them in preorder is shorter or holds one of them earlier. -/
theorem ordered_tightest {records : List ClassRecord} {h : Hierarchy}
    (ingested : Hierarchy.ofRecords records = .ok h) {root : NodeId} (lt : root < h.size)
    {pads : List Nat} (length : pads.length = (h.preorder root).length)
    (words : ∀ m ∈ h.members (h.preorder root) pads, m.node.isDefined = true → m.InWords)
    (sizes : ∀ m ∈ h.members (h.preorder root) pads, m.node.width + m.pad ≤ signBit)
    (name : String) :
    let members := h.members (h.preorder root) pads
    IsLeast {a | (∃ t, a = 2 ^ t) ∧ ∀ m ∈ members, m.node.width + m.pad ≤ a}
      (ordered members).alignment ∧
    (checkStream name .ordered members (ordered members) = .ok () ∧
      InPreorder members (ordered members).slots) ∧
    ∀ table : Arrangement, table.alignment = (ordered members).alignment →
      checkStream name .ordered members table = .ok () → InPreorder members table.slots →
        (ordered members).slots.length ≤ table.slots.length ∧
        ∀ m ∈ members, m.node.isDefined = true → ∃ p q,
          (ordered members).slots.idxOf? m.point = some p ∧
            table.slots.idxOf? m.point = some q ∧ p ≤ q := by
  intro members
  have sep : Separate members :=
    (Hierarchy.wellFormed_of_ofRecords ingested).separate lt length words
  have pos := orderedAlignment_pos sizes
  have succeeds : orderedFails members = false :=
    orderedFails_eq_false_iff.mpr fun _ _ _ => pos
  refine ⟨isLeast_orderedAlignment sizes, ⟨checkStream_arrange sep name succeeds,
    (arranges_ordered sep succeeds).inPreorder sep⟩, fun table same accepted inPreorder => ?_⟩
  obtain ⟨faithful, rows⟩ := (checkStream_iff sep).mp accepted
  exact ⟨length_ordered_le faithful (rows rfl) sep inPreorder (orderedAlignment_dvd pos) same,
    fun m hm defined =>
      idxOf?_point_ordered_le faithful (rows rfl) sep inPreorder succeeds same hm defined⟩

namespace Diamond

/-- The diamond arranged for twice the alignment that its members call for. -/
def spread : Arrangement :=
  let members := hierarchy.members (hierarchy.preorder 0) [0, 3, 1, 2]
  ⟨orderedFrom (2 * orderedAlignment members) 0 members, orderedAlignment members⟩

end Diamond

/-- Arranged for twice the alignment, the diamond is also accepted, but takes up more slots. -/
theorem spread_diamond_longer :
    [0, 3, 1, 2].length = (Diamond.hierarchy.preorder 0).length ∧
    let members := Diamond.hierarchy.members (Diamond.hierarchy.preorder 0) [0, 3, 1, 2]
    (∀ m ∈ members, m.node.isDefined = true → m.InWords) ∧
    (∀ m ∈ members, m.node.width + m.pad ≤ signBit) ∧
    Diamond.spread.alignment = (ordered members).alignment ∧
    checkStream "Base" .ordered members Diamond.spread = .ok () ∧
    InPreorder members Diamond.spread.slots ∧
    (ordered members).slots.length ≤ Diamond.spread.slots.length ∧
    (ordered members).slots.length = 25 ∧ Diamond.spread.slots.length = 49 := by
  have accepted : checkStream "Base" .ordered
      (Diamond.hierarchy.members (Diamond.hierarchy.preorder 0) [0, 3, 1, 2])
      Diamond.spread = .ok () := by decide +kernel
  have inPreorder : InPreorder
      (Diamond.hierarchy.members (Diamond.hierarchy.preorder 0) [0, 3, 1, 2])
      Diamond.spread.slots := by decide +kernel
  have sizes : ∀ m ∈ Diamond.hierarchy.members (Diamond.hierarchy.preorder 0) [0, 3, 1, 2],
      m.node.width + m.pad ≤ signBit := by decide +kernel
  obtain ⟨-, -, tightest⟩ := ordered_tightest Diamond.ofRecords_records Diamond.size_pos
    Diamond.length_padding Diamond.inWords_padding sizes "Base"
  have longer := (tightest Diamond.spread rfl accepted inPreorder).1
  exact ⟨Diamond.length_padding, Diamond.inWords_padding, sizes, rfl, accepted, inPreorder, longer, by decide +kernel,
    by decide +kernel⟩

/-- There is no alignment if a child has more slots than the greatest power of two. -/
theorem wide_unaligned :
    Hierarchy.ofRecords (Wide.records 9223372036854775808) =
      .ok (Wide.hierarchy 9223372036854775808) ∧
    [0, 0].length = ((Wide.hierarchy 9223372036854775808).preorder 0).length ∧
    let members := (Wide.hierarchy 9223372036854775808).members
      ((Wide.hierarchy 9223372036854775808).preorder 0) [0, 0]
    Strategy.ordered.table members = .error (.fault .zeroDivisor) ∧
    ¬ IsLeast {a | (∃ t, a = 2 ^ t) ∧ ∀ m ∈ members, m.node.width + m.pad ≤ a}
      (ordered members).alignment := by
  refine ⟨rfl, by decide +kernel, by decide +kernel, fun least => ?_⟩
  obtain ⟨⟨t, eq⟩, -⟩ := least.1
  have none : (ordered ((Wide.hierarchy 9223372036854775808).members
      ((Wide.hierarchy 9223372036854775808).preorder 0) [0, 0])).alignment = 0 := by
    decide +kernel
  have some := Nat.two_pow_pos t
  omega

end VtableCloud
