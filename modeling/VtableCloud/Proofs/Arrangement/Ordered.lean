import Mathlib.Algebra.Group.Nat.Defs
import VtableCloud.Arrangement.Ordered
import VtableCloud.Proofs.Arrangement.Arranges

/-!
# The ordered arrangement holds its members one after another

* `nextPowerOfTwo_pos_iff`, `nextPowerOfTwo_dvd`: when there is an alignment, and that positions
  may wrap around without a change to their remainders;
* `extent_le_orderedAlignment`: the alignment is at least as wide as any member;
* `orderedFrom_split`: the table around one member;
* `arranges_ordered`: the ordered arrangement arranges its members, the slots of each in a
  row from `orderedStart` on.
-/

namespace VtableCloud

theorem le_leastPowerOfTwo (n : Nat) : n ≤ leastPowerOfTwo n := by
  rw [leastPowerOfTwo]
  split
  · assumption
  · have : n - 1 < 2 ^ ((n - 1).log2 + 1) := Nat.lt_log2_self
    rw [Nat.pow_eq]
    omega

theorem exists_leastPowerOfTwo (n : Nat) : ∃ t, leastPowerOfTwo n = 2 ^ t := by
  rw [leastPowerOfTwo]
  split
  · exact ⟨0, rfl⟩
  · exact ⟨_, rfl⟩

theorem leastPowerOfTwo_pos (n : Nat) : 0 < leastPowerOfTwo n := by
  rw [leastPowerOfTwo]
  split
  · exact Nat.one_pos
  · exact Nat.two_pow_pos _

theorem leastPowerOfTwo_le {n t : Nat} (le : n ≤ 2 ^ t) : leastPowerOfTwo n ≤ 2 ^ t := by
  rw [leastPowerOfTwo]
  split
  · exact Nat.two_pow_pos t
  · rw [Nat.pow_eq]
    have short : (n - 1).log2 < t := (Nat.log2_lt (by omega)).mpr (by omega)
    exact Nat.pow_le_pow_right (by omega) short

theorem signBit_eq : signBit = 2 ^ 63 := by decide

theorem wordCount_eq : wordCount = 2 ^ 64 := by decide

/-- A number has a next power of two among the words just up to the sign bit. -/
theorem nextPowerOfTwo_pos_iff {n : Nat} : 0 < nextPowerOfTwo n ↔ n ≤ signBit := by
  rw [nextPowerOfTwo]
  split
  · rename_i le
    exact ⟨fun _ => le, fun _ => leastPowerOfTwo_pos n⟩
  · rename_i more
    exact ⟨fun pos => absurd pos (Nat.lt_irrefl 0), fun le => absurd le more⟩

theorem nextPowerOfTwo_of_le {n : Nat} (le : n ≤ signBit) :
    nextPowerOfTwo n = leastPowerOfTwo n := if_pos le

theorem nextPowerOfTwo_dvd {n : Nat} (pos : 0 < nextPowerOfTwo n) :
    nextPowerOfTwo n ∣ wordCount := by
  have le := nextPowerOfTwo_pos_iff.mp pos
  obtain ⟨t, eq⟩ := exists_leastPowerOfTwo n
  rw [nextPowerOfTwo_of_le le, eq, wordCount_eq]
  rw [signBit_eq] at le
  have short := leastPowerOfTwo_le le
  rw [eq] at short
  refine Nat.pow_dvd_pow 2 ?_
  have := (Nat.pow_le_pow_iff_right (by omega)).mp short
  omega

variable {members : List Member}

theorem orderedAlignment_dvd (pos : 0 < orderedAlignment members) :
    orderedAlignment members ∣ wordCount := nextPowerOfTwo_dvd pos

theorem size_le_orderedAlignment (pos : 0 < orderedAlignment members) {m : Member}
    (hm : m ∈ members) : m.size ≤ orderedAlignment members := by
  have widest := (le_foldl_max (members.map Member.size) 1).2 m.size (List.mem_map_of_mem hm)
  have next := le_leastPowerOfTwo ((members.map Member.size).foldl max 1)
  rw [← nextPowerOfTwo_of_le (nextPowerOfTwo_pos_iff.mp pos)] at next
  exact Nat.le_trans widest next

theorem extent_le_orderedAlignment (pos : 0 < orderedAlignment members) {m : Member}
    (hm : m ∈ members) (fits : m.Fits) : m.extent ≤ orderedAlignment members :=
  fits.size_eq ▸ size_le_orderedAlignment pos hm

section

variable (sizes : ∀ m ∈ members, m.node.width + m.pad ≤ signBit)

include sizes

theorem size_of_le {m : Member} (hm : m ∈ members) : m.size = m.node.width + m.pad :=
  unsignedWord_of_lt (Nat.lt_of_le_of_lt (sizes m hm) (by decide))

/-- If no member is wider than the greatest power of two, there is an alignment. -/
theorem orderedAlignment_of_le :
    orderedAlignment members = leastPowerOfTwo ((members.map Member.size).foldl max 1) := by
  refine nextPowerOfTwo_of_le (Nat.le_of_not_lt fun more => ?_)
  rcases lt_foldl_max_iff.mp more with one | ⟨_, listed, more⟩
  · exact absurd one (by decide)
  · obtain ⟨m, hm, rfl⟩ := List.mem_map.mp listed
    rw [size_of_le sizes hm] at more
    exact Nat.not_lt_of_le (sizes m hm) more

theorem orderedAlignment_pos : 0 < orderedAlignment members := by
  rw [orderedAlignment_of_le sizes]
  exact leastPowerOfTwo_pos _

end

theorem dvd_add_alignmentGap {alignment : Nat} (pos : 0 < alignment) (position : Nat) :
    alignment ∣ position + alignmentGap alignment position := by
  rw [alignmentGap]
  split
  · rename_i even
    exact Nat.dvd_of_mod_eq_zero even
  · have less := Nat.mod_lt position pos
    have whole := Nat.div_add_mod position alignment
    refine ⟨position / alignment + 1, ?_⟩
    rw [Nat.mul_add, Nat.mul_one]
    omega

/-- A position that wraps around has the gap of the whole number. -/
theorem alignmentGap_unsignedWord {alignment : Nat} (dvd : alignment ∣ wordCount) (position : Nat) :
    alignmentGap alignment (unsignedWord position) = alignmentGap alignment position := by
  rw [alignmentGap, alignmentGap, unsignedWord_mod dvd]

theorem orderedFrom_append {alignment : Nat} (first second : List Member) :
    ∀ position, orderedFrom alignment position (first ++ second) =
      orderedFrom alignment position first ++
        orderedFrom alignment (position + (orderedFrom alignment position first).length)
          second := by
  induction first with
  | nil => simp [orderedFrom]
  | cons m first ih =>
    intro position
    rw [List.cons_append, orderedFrom, orderedFrom]
    split
    · simp [ih, Member.entries, Nat.add_assoc]
    · exact ih position

/-- Where the slots of a member begin, given the members before it. -/
def orderedStart (alignment : Nat) (earlier : List Member) (m : Member) : Nat :=
  let position := (orderedFrom alignment 0 earlier).length
  position + alignmentGap alignment (unsignedWord (position + m.before))

theorem dvd_orderedStart {alignment : Nat} (dvd : alignment ∣ wordCount) (earlier : List Member)
    (m : Member) : alignment ∣ orderedStart alignment earlier m + m.before := by
  have pos : 0 < alignment := Nat.pos_of_dvd_of_pos dvd (by decide)
  have next := dvd_add_alignmentGap pos ((orderedFrom alignment 0 earlier).length + m.before)
  rw [← alignmentGap_unsignedWord dvd, Nat.add_right_comm] at next
  exact next

/-- The table around the slots of a defined member. -/
theorem orderedFrom_split (alignment : Nat) (earlier later : List Member) {m : Member}
    (defined : m.node.isDefined = true) :
    ∃ front, front.length = orderedStart alignment earlier m ∧
      orderedFrom alignment 0 (earlier ++ m :: later) = front ++ m.entries ++
        orderedFrom alignment (orderedStart alignment earlier m + m.extent) later := by
  refine ⟨orderedFrom alignment 0 earlier ++ List.replicate (alignmentGap alignment
    (unsignedWord ((orderedFrom alignment 0 earlier).length + m.before))) .dummy, ?_, ?_⟩
  · simp [orderedStart]
  · rw [orderedFrom_append, orderedFrom, if_pos defined]
    simp [orderedStart, Nat.add_assoc]

theorem length_orderedFrom_snoc (alignment : Nat) (earlier : List Member) {m : Member}
    (defined : m.node.isDefined = true) :
    (orderedFrom alignment 0 (earlier ++ [m])).length =
      orderedStart alignment earlier m + m.extent := by
  obtain ⟨front, length, eq⟩ := orderedFrom_split alignment earlier [] defined
  rw [eq]
  simp [length, Member.entries, orderedFrom]

theorem mem_orderedFrom {alignment : Nat} {s : Slot} :
    ∀ {members : List Member} {position : Nat}, s ∈ orderedFrom alignment position members →
      s = .dummy ∨ ∃ m ∈ members, m.node.isDefined = true ∧ s ∈ m.entries := by
  intro members
  induction members with
  | nil => simp [orderedFrom]
  | cons m members ih =>
    intro position hs
    have later : s ∈ orderedFrom alignment position members ∨
        (∃ next, s ∈ orderedFrom alignment next members) →
        s = .dummy ∨ ∃ m' ∈ m :: members, m'.node.isDefined = true ∧ s ∈ m'.entries := by
      rintro (hs | ⟨_, hs⟩)
      all_goals
        refine (ih hs).imp id ?_
        rintro ⟨m', hm', rest⟩
        exact ⟨m', List.mem_cons_of_mem m hm', rest⟩
    rw [orderedFrom] at hs
    split at hs
    · rename_i defined
      rcases List.mem_append.mp hs with hs | hs
      · rcases List.mem_append.mp hs with hs | hs
        · exact Or.inl (List.mem_replicate.mp hs).2
        · exact Or.inr ⟨m, by simp, defined, hs⟩
      · exact later (Or.inr ⟨_, hs⟩)
    · exact later (Or.inl hs)

theorem entriesOnce_orderedFrom {alignment : Nat} :
    ∀ {members : List Member} {position : Nat}, (members.map (·.key)).Nodup →
      EntriesOnce (orderedFrom alignment position members) := by
  intro members
  induction members with
  | nil => simp [orderedFrom, EntriesOnce]
  | cons m members ih =>
    intro position keys
    obtain ⟨own, keys⟩ := List.nodup_cons.mp keys
    rw [orderedFrom]
    split
    · refine List.pairwise_append.mpr ⟨List.pairwise_append.mpr ⟨?_, ?_, ?_⟩, ih keys, ?_⟩
      · exact List.pairwise_replicate.mpr (Or.inr fun _ => rfl)
      · rw [Member.entries, List.pairwise_map]
        exact List.nodup_range.imp fun ne same => absurd (Member.entry_inj.mp same) ne
      · intro a ha b _ _
        exact (List.mem_replicate.mp ha).2
      · intro a ha b hb same
        rcases List.mem_append.mp ha with ha | ha
        · exact (List.mem_replicate.mp ha).2
        · rcases mem_orderedFrom hb with filler | ⟨m', hm', -, hb⟩
          · exact same.trans filler
          · obtain ⟨i, -, rfl⟩ := Member.mem_entries.mp ha
            obtain ⟨j, -, rfl⟩ := Member.mem_entries.mp hb
            exact absurd (List.mem_map.mpr ⟨m', hm', (Member.key_of_entry_eq same).symm⟩) own
    · exact ih keys

/-- The position of a slot in the ordered arrangement, by the place of its member. -/
def orderedPlace (members : List Member) (k i : Nat) : Nat :=
  orderedStart (orderedAlignment members) (members.take k) (members.getD k default) + i

theorem orderedPlace_eq {k : Nat} {m : Member} (hm : members[k]? = some m) (i : Nat) :
    orderedPlace members k i =
      orderedStart (orderedAlignment members) (members.take k) m + i := by
  simp [orderedPlace, hm]

theorem dvd_orderedPlace (pos : 0 < orderedAlignment members) {k : Nat} {m : Member}
    (hm : members[k]? = some m) :
    orderedAlignment members ∣ orderedPlace members k m.before := by
  rw [orderedPlace_eq hm]
  exact dvd_orderedStart (orderedAlignment_dvd pos) _ m

theorem placed_ordered {k : Nat} {m : Member} (hm : members[k]? = some m)
    (defined : m.node.isDefined = true) {i : Nat} (inside : i < m.extent) :
    (ordered members).slots[orderedPlace members k i]? = some (m.entry i) := by
  obtain ⟨front, length, eq⟩ := orderedFrom_split (orderedAlignment members)
    (members.take k) (members.drop (k + 1)) defined
  rw [take_append_cons_drop hm] at eq
  have within : i < m.entries.length := by simpa [Member.entries] using inside
  rw [ordered, eq, orderedPlace_eq hm, ← length, List.append_assoc,
    List.getElem?_append_right (Nat.le_add_right _ _), Nat.add_sub_cancel_left,
    List.getElem?_append_left within]
  simp [Member.entries, inside]

/-- The slots of a member end before those of a later one begin. -/
theorem orderedPlace_before {k l : Nat} {m m' : Member} (lt : k < l) (hm : members[k]? = some m)
    (hm' : members[l]? = some m') (defined : m.node.isDefined = true) :
    orderedPlace members k m.extent ≤ orderedPlace members l 0 := by
  have whole := length_orderedFrom_snoc (orderedAlignment members) (members.take k) defined
  have next : members.take (k + 1) = members.take k ++ [m] := by
    rw [List.take_add_one, hm, Option.toList_some]
  obtain ⟨rest, eq⟩ := List.take_prefix_take_left (l := members) (Nat.succ_le_of_lt lt)
  have before : orderedStart (orderedAlignment members) (members.take k) m + m.extent ≤
      (orderedFrom (orderedAlignment members) 0 (members.take l)).length := by
    rw [← eq, Nat.succ_eq_add_one, next, orderedFrom_append, List.length_append, whole]
    exact Nat.le_add_right _ _
  rw [orderedPlace_eq hm, orderedPlace_eq hm']
  exact Nat.le_trans before (Nat.le_add_right _ _)

/-- Multiples of a step that lie less than the step apart are the same. -/
theorem eq_of_dvd_of_near {step start i j : Nat} (hi : step ∣ start + i) (hj : step ∣ start + j)
    (near : i < step) (near' : j < step) : i = j := by
  rcases Nat.lt_trichotomy i j with less | same | more
  · have := Nat.le_of_dvd (by omega) (Nat.dvd_sub hj hi)
    omega
  · exact same
  · have := Nat.le_of_dvd (by omega) (Nat.dvd_sub hi hj)
    omega

/-- If there is a member to align, there is an alignment. -/
theorem orderedFails_eq_false_iff : orderedFails members = false ↔
    ∀ m ∈ members, m.node.isDefined = true → 0 < orderedAlignment members := by
  rw [orderedFails, Bool.and_eq_false_iff, beq_eq_false_iff_ne, ← Nat.pos_iff_ne_zero,
    List.any_eq_false]
  constructor
  · rintro (pos | none) m hm defined
    · exact pos
    · exact absurd defined (none m hm)
  · intro each
    by_cases pos : 0 < orderedAlignment members
    · exact Or.inl pos
    · exact Or.inr fun m hm defined => pos (each m hm defined)

theorem arranges_ordered (sep : Separate members) (succeeds : orderedFails members = false) :
    Arranges members (ordered members) (orderedPlace members) where
  once := entriesOnce_orderedFrom sep.keys
  only s hs ne := by
    rcases mem_orderedFrom hs with filler | ⟨m, hm, defined, hs⟩
    · exact absurd filler ne
    · exact ⟨m, hm, defined, Member.mem_entries.mp hs⟩
  placed k m hm defined i inside := placed_ordered hm defined inside
  ascending k m hm _ i j lt _ := by
    rw [orderedPlace_eq hm, orderedPlace_eq hm]
    omega
  positive := orderedFails_eq_false_iff.mp succeeds
  aligned k m hm defined :=
    dvd_orderedPlace (orderedFails_eq_false_iff.mp succeeds m (List.mem_of_getElem? hm) defined) hm
  preordered k l m m' lt hm hm' defined _ := by
    have before := orderedPlace_before lt hm hm' defined
    have within := (sep.fits m (List.mem_of_getElem? hm) defined).before_lt
    rw [orderedPlace_eq hm, orderedPlace_eq hm'] at *
    omega
  carried k l m m' lt hm hm' _ _ fits i _ := by
    have fit := (fits l m' (Nat.le_of_lt lt) (Nat.le_refl l) hm').1
    rw [orderedPlace_eq hm, orderedPlace_eq hm, orderedPlace_eq hm', orderedPlace_eq hm']
    omega
  level j k l x _ _ hx _ _ defined _ _ i inside even _ _ := by
    have even : orderedAlignment members ∣ orderedPlace members j i := even
    have listed := List.mem_of_getElem? hx
    have pos := orderedFails_eq_false_iff.mp succeeds x listed defined
    have point := dvd_orderedPlace pos hx
    have wide := extent_le_orderedAlignment pos listed (sep.fits x listed defined)
    have within := (sep.fits x listed defined).before_lt
    rw [orderedPlace_eq hx] at point even
    exact eq_of_dvd_of_near even point (by omega) (by omega)

end VtableCloud
