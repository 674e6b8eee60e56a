import VtableCloud.Proofs.Layout.Stream

/-!
# Tables whose numbers are words

Far padding makes the numbers of a member wrap around. Then its slots are not where the check
expects them, or not as many, so that what is accepted never has such a member.

* `Strategy.Fits`: the numbers of the defined members are words, and a table comes of them;
* `Rounds.gives`: no member drops out of the rounds before it has given all its slots;
* `Strategy.inWords_of_checkStream`: the members of an arrangement that is accepted;
* `Strategy.fits_iff`: the members whose arrangement is accepted.
-/

namespace VtableCloud

/-- The numbers of the defined members are words, and a table comes of them. -/
structure Strategy.Fits (strategy : Strategy) (members : List Member) : Prop where
  words : ∀ m ∈ members, m.node.isDefined = true → m.InWords
  succeeds : strategy.fails members = false

instance (strategy : Strategy) (members : List Member) : Decidable (strategy.Fits members) :=
  decidable_of_iff ((∀ m ∈ members, m.node.isDefined = true → m.InWords) ∧
    strategy.fails members = false) ⟨fun ⟨words, succeeds⟩ => ⟨words, succeeds⟩,
      fun fits => ⟨fits.words, fits.succeeds⟩⟩

/-! ## All slots are placed -/

/-- No member drops out of the rounds before it has given all its slots. -/
theorem Rounds.gives {d : Direction} {cursors : List Cursor} {rounds : List (List Slot)}
    (run : Rounds d cursors rounds) : ∀ c ∈ cursors, ∀ k < d.left c,
      Slot.entry c.member.key (c.next + k * d.step) ∈ rounds.flatten := by
  induction run with
  | done empty =>
    intro c hc k lt
    rw [Direction.round, List.map_eq_nil_iff, List.filter_eq_nil_iff] at empty
    exact absurd (Direction.remaining_iff_left_pos.mpr (by omega)) (empty c hc)
  | @more cursors rounds some rest ih =>
    intro c hc k lt
    have remaining := Direction.remaining_iff_left_pos.mpr (Nat.zero_lt_of_lt lt)
    rw [List.flatten_cons, List.mem_append]
    cases k with
    | zero =>
      refine Or.inl (List.mem_map.mpr ⟨c, List.mem_filter.mpr ⟨hc, remaining⟩, ?_⟩)
      simp
    | succ k =>
      have later := ih (d.advance c) (List.mem_map_of_mem hc) k (by
        rw [Direction.left_advance]
        omega)
      rw [Direction.advance, if_pos remaining] at later
      have index :
          c.next + d.step + (k : Int) * d.step = c.next + ((k + 1 : Nat) : Int) * d.step := by
        rw [Int.natCast_add, Int.add_mul]
        omega
      exact Or.inr (index ▸ later)

variable {members : List Member} {m : Member}

theorem cursor_mem_start {d : Direction} (hm : m ∈ members) (defined : m.node.isDefined = true) :
    (⟨m, m.node.addressPoint + d.origin⟩ : Cursor) ∈ d.start members :=
  List.mem_map_of_mem (List.mem_filter.mpr ⟨hm, defined⟩)

/-- From its address point on, the slots of a member are in the interleaved table. -/
theorem mem_interleaved_of_ge (hm : m ∈ members) (defined : m.node.isDefined = true) {index : Int}
    (lo : m.node.addressPoint ≤ index) (hi : index ≤ m.node.last) :
    Slot.entry m.key index ∈ (interleaved members).slots := by
  have given := (Direction.allRounds_run (d := .forward) members).gives _
    (cursor_mem_start hm defined) (index - m.node.addressPoint).toNat (by
      show (index - m.node.addressPoint).toNat <
        ((m.node.last : Int) + 1 - (m.node.addressPoint + 0)).toNat
      omega)
  have same : (m.node.addressPoint : Int) + 0 +
      ((index - m.node.addressPoint).toNat : Int) * 1 = index := by omega
  exact List.mem_append_right _ (same ▸ given)

/-- Before its address point, the slots of a member are in the interleaved table. -/
theorem mem_interleaved_of_lt (hm : m ∈ members) (defined : m.node.isDefined = true) {index : Int}
    (lo : m.first ≤ index) (hi : index < m.node.addressPoint) :
    Slot.entry m.key index ∈ (interleaved members).slots := by
  have given := (Direction.allRounds_run (d := .backward) members).gives _
    (cursor_mem_start hm defined) (m.node.addressPoint - 1 - index).toNat (by
      show (m.node.addressPoint - 1 - index).toNat <
        ((m.node.addressPoint : Int) + -1 + 1 - m.first).toNat
      omega)
  have same : (m.node.addressPoint : Int) + -1 +
      ((m.node.addressPoint - 1 - index).toNat : Int) * -1 = index := by omega
  refine List.mem_append_left _ ?_
  rw [List.mem_flatten] at given ⊢
  obtain ⟨round, listed, here⟩ := given
  exact ⟨round, List.mem_reverse.mpr listed, same ▸ here⟩

theorem entry_mem_ordered (hm : m ∈ members) (defined : m.node.isDefined = true) {i : Nat}
    (lt : i < m.extent) : m.entry i ∈ (ordered members).slots := by
  obtain ⟨k, hk⟩ := List.mem_iff_getElem?.mp hm
  exact List.mem_of_getElem? (placed_ordered hk defined lt)

/-- The address point is not in front of the slots that the check expects. -/
theorem first_le_of_mem {slots : List Slot} (keys : DistinctKeys members) (hm : m ∈ members)
    (defined : m.node.isDefined = true) {index : Int} (listed : Slot.entry m.key index ∈ slots)
    (passed : slotsViolation? (members.map (Located.ofMember slots)) 0 slots = none) :
    m.first ≤ index := by
  obtain ⟨p, hp⟩ := List.mem_iff_getElem?.mp listed
  have none := slotsViolation?_none_iff.mp passed p _ hp
  rw [slotViolation?_member keys hm, if_neg (by simp [defined])] at none
  by_contra less
  rw [if_pos (by omega)] at none
  cases none

theorem length_positions {slots : List Slot} (all : ∀ i < m.extent, m.entry i ∈ slots) :
    (m.positions slots).length = m.extent := by
  rw [Member.positions_eq, List.length_filterMap_eq_countP]
  have each : ∀ s ∈ m.entries, (slots.idxOf? s).isSome = true := by
    intro s hs
    obtain ⟨i, lt, rfl⟩ := Member.mem_entries.mp hs
    rw [idxOf?_of_mem (all i lt)]
    rfl
  rw [List.countP_eq_length.mpr each, Member.entries, List.length_map, List.length_range]

/-! ## What the check says of the members -/

/-- As many slots of an accepted member are placed as its size says. -/
theorem extent_eq_size {root : String} {strategy : Strategy} {table : Arrangement}
    (defined : m.node.isDefined = true) (all : ∀ i < m.extent, m.entry i ∈ table.slots)
    (passed : memberError? root strategy table.alignment (Located.ofMember table.slots m) = none) :
    m.extent = m.size := by
  simp only [memberError?, notedPositions_ofMember defined, Located.member_ofMember,
    length_positions all] at passed
  rw [if_pos defined] at passed
  by_contra other
  rw [if_pos other] at passed
  cases passed

/-- The address point of an accepted member of an ordered table is among its positions. -/
theorem before_lt_length_positions {root : String} {slots : List Slot} {alignment : Nat}
    (defined : m.node.isDefined = true)
    (passed : memberError? root .ordered alignment (Located.ofMember slots m) = none) :
    unsignedWord m.before < (m.positions slots).length := by
  simp only [memberError?, notedPositions_ofMember defined, Located.member_ofMember] at passed
  rw [if_pos defined] at passed
  split at passed
  · cases passed
  · split at passed
    · cases passed
    · rw [orderedError?] at passed
      split at passed
      · split at passed
        · cases passed
        · split at passed
          · rename_i here
            exact (List.getElem?_eq_some_iff.mp here).1
          · cases passed
      · cases passed

/-- The numbers of a member are words if its slots are as many as its size says and the address
point is one of them. -/
theorem Member.inWords_of_extent (point : m.Pointed) (front : m.before < wordCount)
    (low : m.first ≤ m.node.addressPoint) (full : m.extent = m.size) : m.InWords := by
  obtain ⟨lo, hi⟩ := point
  obtain ⟨j, first⟩ := exists_signedWord_eq ((m.node.start : Int) - m.pad)
  obtain ⟨i, size⟩ := exists_unsignedWord_eq (m.node.width + m.pad)
  have small := unsignedWord_lt (m.node.width + m.pad)
  change m.first = _ at first
  change _ = m.size + _ at size
  change m.size < _ at small
  rw [Member.extent] at full
  simp only [Member.before, Node.addressOffset, Node.width] at *
  rw [wordCount] at *
  -- Both wraps are the same, and there is no room for one in front of the address point.
  obtain rfl : j = 0 := by omega
  obtain rfl : i = 0 := by omega
  refine ⟨signedWord_eq_iff.mp ?_, ?_⟩
  · show m.first = _
    omega
  · rw [Node.width, wordCount]
    omega

/-- If the offset of the address point is among those of the slots, it is not in front of them. -/
theorem Member.first_le_addressPoint (point : m.Pointed) (back : m.after < wordCount)
    (inside : m.before < m.extent) : m.first ≤ m.node.addressPoint := by
  obtain ⟨lo, hi⟩ := point
  obtain ⟨j, first⟩ := exists_signedWord_eq ((m.node.start : Int) - m.pad)
  change m.first = _ at first
  simp only [Member.before, Member.after, Member.extent, Node.addressOffset] at *
  rw [wordCount] at *
  omega

theorem Strategy.inWords_of_checkStream {root : String} {strategy : Strategy}
    (keys : DistinctKeys members)
    (accepted : checkStream root strategy members (strategy.arrange members) = .ok ())
    (hm : m ∈ members) (defined : m.node.isDefined = true) (point : m.Pointed)
    (front : m.before < wordCount) (back : m.after < wordCount) : m.InWords := by
  obtain ⟨slots, each⟩ := checkStream_stages.mp accepted
  have passed := each m hm
  cases strategy with
  | interleaved =>
    have here := mem_interleaved_of_ge hm defined (Int.le_refl _) (Int.ofNat_le.mpr point.2)
    have low := first_le_of_mem keys hm defined here slots
    refine Member.inWords_of_extent point front low (extent_eq_size defined ?_ passed)
    intro i lt
    rw [Member.extent] at lt
    rcases Int.lt_or_le (m.first + i) m.node.addressPoint with before | after
    · exact mem_interleaved_of_lt hm defined (by omega) before
    · exact mem_interleaved_of_ge hm defined after (by omega)
  | ordered =>
    have all : ∀ i < m.extent, m.entry i ∈ (Strategy.ordered.arrange members).slots :=
      fun i lt => entry_mem_ordered hm defined lt
    have inside := before_lt_length_positions defined passed
    rw [unsignedWord_of_lt front, length_positions all] at inside
    refine Member.inWords_of_extent point front ?_ (extent_eq_size defined all passed)
    exact Member.first_le_addressPoint point back inside

variable {strategy : Strategy}

/-- An arrangement is accepted just if the numbers of the members are words and the strategy has a
table for them. -/
theorem Strategy.fits_iff (keys : DistinctKeys members) (root : String)
    (point : ∀ m ∈ members, m.Pointed) (front : ∀ m ∈ members, m.before < wordCount)
    (back : ∀ m ∈ members, m.after < wordCount) :
    strategy.Fits members ↔ ∃ table, strategy.table members = .ok table ∧
      checkStream root strategy members table = .ok () := by
  constructor
  · rintro ⟨words, succeeds⟩
    have sep : Separate members := ⟨keys, fun m hm defined => ⟨point m hm, words m hm defined⟩⟩
    exact ⟨_, Strategy.table_ok.mpr ⟨succeeds, rfl⟩, checkStream_arrange sep root succeeds⟩
  · rintro ⟨_, made, accepted⟩
    obtain ⟨succeeds, rfl⟩ := Strategy.table_ok.mp made
    exact ⟨fun m hm defined => inWords_of_checkStream keys accepted hm defined (point m hm)
      (front m hm) (back m hm), succeeds⟩

end VtableCloud
