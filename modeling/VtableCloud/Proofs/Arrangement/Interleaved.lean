import Mathlib.Data.List.Basic
import VtableCloud.Proofs.Arrangement.Rounds

/-!
# The interleaved arrangement holds its members round by round

* `interleaved_slots`: the table is the rounds in the order of their distances;
* `placed_interleaved`: where the table holds a slot;
* `interleavedPlace_distance`, `interleavedPlace_carried`: when a slot is moved equally in two
  members;
* `arranges_interleaved`: the interleaved arrangement arranges its members.
-/

namespace VtableCloud

variable {members : List Member}

/-- The first rounds of the table, the farthest before the address points first. -/
def roundsUpTo (members : List Member) (n : Nat) : List Slot :=
  (List.range n).flatMap fun r : Nat =>
    roundAt members ((r : Int) - Direction.backward.count members)

theorem roundsUpTo_succ (n : Nat) : roundsUpTo members (n + 1) =
    roundsUpTo members n ++ roundAt members ((n : Int) - Direction.backward.count members) := by
  simp [roundsUpTo, List.range_succ, List.flatMap_append]

theorem roundsUpTo_initial (members : List Member) {n n' : Nat} (le : n ≤ n') :
    roundsUpTo members n <+: roundsUpTo members n' := by
  obtain ⟨d, rfl⟩ := Nat.le.dest le
  rw [roundsUpTo, roundsUpTo, List.range_add, List.flatMap_append]
  exact List.prefix_append _ _

/-- The table is the rounds in the order of their distances. -/
theorem interleaved_slots (fits : ∀ m ∈ members, m.node.isDefined = true → m.Fits) :
    (interleaved members).slots = roundsUpTo members
      (Direction.backward.count members + Direction.forward.count members) := by
  have reversed : (List.range (Direction.backward.count members)).reverse =
      (List.range (Direction.backward.count members)).map
        (Direction.backward.count members - 1 - ·) := by
    rw [List.range_eq_range', List.reverse_range']
    simp [List.range_eq_range']
  have halves : (interleaved members).slots =
      (Direction.backward.allRounds members).reverse.flatten ++
        (Direction.forward.allRounds members).flatten := rfl
  rw [halves, Direction.allRounds_eq fits, Direction.allRounds_eq fits, ← List.map_reverse,
    ← List.flatMap_def, ← List.flatMap_def, reversed, roundsUpTo, List.range_add,
    List.flatMap_append, List.flatMap_map, List.flatMap_map]
  congr 1
  · refine List.flatMap_congr fun r hr => ?_
    have := List.mem_range.mp hr
    congr 1
    show -(((Direction.backward.count members - 1 - r : Nat) : Int) + 1) = _
    omega
  · refine List.flatMap_congr fun r _ => ?_
    congr 1
    show ((r : Nat) : Int) = _
    omega

theorem reaches_bounds {m : Member} (hm : m ∈ members) {distance : Int}
    (reaches : m.reaches distance = true) :
    -(Direction.backward.count members : Int) ≤ distance ∧
      distance < Direction.forward.count members := by
  obtain ⟨defined, lo, hi⟩ := Member.reaches_iff.mp reaches
  have listed : m ∈ members.filter (·.node.isDefined) := List.mem_filter.mpr ⟨hm, defined⟩
  have front : m.before ≤ Direction.backward.count members :=
    (le_foldl_max _ 0).2 _ (List.mem_map_of_mem listed)
  have back : m.after + 1 ≤ Direction.forward.count members :=
    (le_foldl_max _ 0).2 _ (List.mem_map_of_mem listed)
  omega

/-- The number of slots in the rounds before a distance. -/
def slotsBefore (members : List Member) (distance : Int) : Nat :=
  (roundsUpTo members ((Direction.backward.count members : Int) + distance).toNat).length

theorem slotsBefore_succ {distance : Int}
    (lo : -(Direction.backward.count members : Int) ≤ distance) :
    slotsBefore members (distance + 1) =
      slotsBefore members distance + members.countP (·.reaches distance) := by
  have next : ((Direction.backward.count members : Int) + (distance + 1)).toNat =
      ((Direction.backward.count members : Int) + distance).toNat + 1 := by omega
  have last : ((((Direction.backward.count members : Int) + distance).toNat : Nat) : Int) -
      Direction.backward.count members = distance := by omega
  rw [slotsBefore, slotsBefore, next, roundsUpTo_succ, List.length_append, last]
  simp [roundAt, List.countP_eq_length_filter]

theorem slotsBefore_mono (members : List Member) {d e : Int} (le : d ≤ e) :
    slotsBefore members d ≤ slotsBefore members e :=
  (roundsUpTo_initial members (by omega)).length_le

/-- The position of a slot in the interleaved arrangement: the rounds before its own, and
then the members before its own that take part in the round. -/
def interleavedPlace (members : List Member) (k i : Nat) : Nat :=
  let distance : Int := (i : Int) - (members.getD k default).before
  slotsBefore members distance + (members.take k).countP (·.reaches distance)

theorem interleavedPlace_eq {k : Nat} {m : Member} (hm : members[k]? = some m) (i : Nat) :
    interleavedPlace members k i = slotsBefore members ((i : Int) - m.before) +
      (members.take k).countP (·.reaches ((i : Int) - m.before)) := by
  simp [interleavedPlace, hm]

theorem Member.Fits.reaches_iff_lt {m : Member} (h : m.Fits)
    (defined : m.node.isDefined = true) {i : Nat} :
    m.reaches ((i : Int) - m.before) = true ↔ i < m.extent := by
  rw [Member.reaches_iff, h.extent_eq]
  constructor
  · rintro ⟨-, -, hi⟩
    omega
  · intro lt
    exact ⟨defined, by omega, by omega⟩

/-- A member that takes part in a round adds to the members before it. -/
theorem countP_take_lt {k l : Nat} {m : Member} {distance : Int} (hm : members[k]? = some m)
    (reaches : m.reaches distance = true) (lt : k < l) :
    (members.take k).countP (·.reaches distance) <
      (members.take l).countP (·.reaches distance) := by
  have next : members.take (k + 1) = members.take k ++ [m] := by
    rw [List.take_add_one, hm, Option.toList_some]
  have sub := (List.take_prefix_take_left (l := members) (Nat.succ_le_of_lt lt)).sublist.countP_le
    (p := (·.reaches distance))
  rw [Nat.succ_eq_add_one, next, List.countP_append] at sub
  simp [reaches] at sub
  omega

/-- A slot stands before all later rounds. -/
theorem interleavedPlace_lt {k : Nat} {m : Member} (hm : members[k]? = some m) {i : Nat}
    (reaches : m.reaches ((i : Int) - m.before) = true) (distance : Int)
    (later : (i : Int) - m.before < distance) :
    interleavedPlace members k i < slotsBefore members distance := by
  have inside : k < members.length := (List.getElem?_eq_some_iff.mp hm).1
  have lo := (reaches_bounds (List.mem_of_getElem? hm) reaches).1
  have count := countP_take_lt hm reaches inside
  rw [List.take_length] at count
  have whole := slotsBefore_succ lo
  have next := slotsBefore_mono members (Int.add_one_le_of_lt later)
  rw [interleavedPlace_eq hm]
  omega

theorem mem_roundAt (fits : ∀ m ∈ members, m.node.isDefined = true → m.Fits) {s : Slot}
    {distance : Int} (hs : s ∈ roundAt members distance) : ∃ m ∈ members, m.node.isDefined = true ∧
      ∃ i < m.extent, s = m.entry i ∧ (i : Int) - m.before = distance := by
  obtain ⟨m, hm, rfl⟩ := List.mem_map.mp hs
  obtain ⟨hm, reaches⟩ := List.mem_filter.mp hm
  obtain ⟨defined, lo, hi⟩ := Member.reaches_iff.mp reaches
  have own := fits m hm defined
  have place : (((distance + m.before).toNat : Nat) : Int) - m.before = distance := by omega
  refine ⟨m, hm, defined, (distance + m.before).toNat, ?_, ?_, place⟩
  · rw [← place] at reaches
    exact (own.reaches_iff_lt defined).mp reaches
  · rw [Member.entry, own.addressPoint_eq]
    congr 1
    omega

theorem mem_roundsUpTo {s : Slot} {n : Nat} (hs : s ∈ roundsUpTo members n) :
    ∃ r < n, s ∈ roundAt members ((r : Int) - Direction.backward.count members) := by
  simpa [roundsUpTo] using hs

theorem mem_interleaved (fits : ∀ m ∈ members, m.node.isDefined = true → m.Fits) {s : Slot}
    (hs : s ∈ (interleaved members).slots) : ∃ m ∈ members, m.node.isDefined = true ∧
      ∃ i < m.extent, s = m.entry i := by
  rw [interleaved_slots fits] at hs
  obtain ⟨r, -, hr⟩ := mem_roundsUpTo hs
  obtain ⟨m, hm, defined, i, lt, eq, -⟩ := mem_roundAt fits hr
  exact ⟨m, hm, defined, i, lt, eq⟩

/-- Within a round keys differ, and between rounds the distances do. -/
theorem entriesOnce_interleaved (sep : Separate members) :
    EntriesOnce (interleaved members).slots := by
  rw [interleaved_slots sep.fits, roundsUpTo, EntriesOnce, List.pairwise_flatMap]
  constructor
  · intro r _
    rw [roundAt, List.pairwise_map]
    refine List.Pairwise.filter _ ?_
    refine (List.pairwise_map.mp sep.keys).imp fun ne same => ?_
    exact absurd (Slot.entry.inj same).1 ne
  · refine List.pairwise_lt_range.imp fun {r r'} lt a ha b hb same => ?_
    obtain ⟨m, hm, -, i, -, rfl, hi⟩ := mem_roundAt sep.fits ha
    obtain ⟨m', hm', -, i', -, rfl, hi'⟩ := mem_roundAt sep.fits hb
    obtain rfl := sep.keys.eq_of_key hm hm' (Member.key_of_entry_eq same)
    obtain rfl := Member.entry_inj.mp same
    omega

/-- The round of a slot, split at its member. -/
theorem getElem?_roundAt {k : Nat} {m : Member} (hm : members[k]? = some m) {distance : Int}
    (reaches : m.reaches distance = true) :
    (roundAt members distance)[(members.take k).countP (·.reaches distance)]? =
      some (.entry m.key ((m.node.addressPoint : Int) + distance)) := by
  have split := (take_append_cons_drop hm).symm
  rw [roundAt, List.getElem?_map]
  conv_lhs => rw [split]
  rw [List.filter_append, List.filter_cons, if_pos reaches, List.countP_eq_length_filter,
    ← split, List.getElem?_append_right (Nat.le_refl _), Nat.sub_self]
  rfl

theorem placed_interleaved (sep : Separate members) {k : Nat} {m : Member}
    (hm : members[k]? = some m) (defined : m.node.isDefined = true) {i : Nat} (lt : i < m.extent) :
    (interleaved members).slots[interleavedPlace members k i]? = some (m.entry i) := by
  have own := sep.fits m (List.mem_of_getElem? hm) defined
  have reaches := (own.reaches_iff_lt defined).mpr lt
  have bounds := reaches_bounds (List.mem_of_getElem? hm) reaches
  have number :
      ((((Direction.backward.count members : Int) + ((i : Int) - m.before)).toNat : Nat) : Int) -
        Direction.backward.count members = (i : Int) - m.before := by omega
  obtain ⟨rest, eq⟩ : roundsUpTo members
      (((Direction.backward.count members : Int) + ((i : Int) - m.before)).toNat + 1) <+:
        roundsUpTo members (Direction.backward.count members + Direction.forward.count members) :=
    roundsUpTo_initial members (by omega)
  have there := getElem?_roundAt hm reaches
  have inside := (List.getElem?_eq_some_iff.mp there).1
  rw [interleaved_slots sep.fits, ← eq, roundsUpTo_succ, number, interleavedPlace_eq hm,
    slotsBefore, List.append_assoc, List.getElem?_append_right (Nat.le_add_right _ _),
    Nat.add_sub_cancel_left, List.getElem?_append_left inside, there, Member.entry,
    own.addressPoint_eq]
  congr 2
  omega

/-- Between two members as many take part in a round as there are address points, just if all
defined members there take part. -/
theorem countP_take_carried {k l : Nat} (le : k ≤ l) {distance : Int} :
    (members.take l).countP (·.reaches distance) + (members.take k).countP (·.reaches 0) =
      (members.take k).countP (·.reaches distance) + (members.take l).countP (·.reaches 0) ↔
    ∀ (j : Nat) (x : Member), k ≤ j → j < l → members[j]? = some x → x.node.isDefined = true →
      x.reaches distance = true := by
  have split : members.take l = members.take k ++ (members.take l).drop k := by
    conv_lhs => rw [← List.take_append_drop k (members.take l), List.take_take,
      Nat.min_eq_left le]
  have pointed : ∀ x : Member, x.reaches 0 = true ↔ x.node.isDefined = true := by
    intro x
    rw [Member.reaches_iff, and_iff_left_iff_imp]
    exact fun _ => ⟨by omega, by omega⟩
  -- A member that takes part in some round takes part in the one of the address points.
  have between := countP_eq_countP_iff (l := (members.take l).drop k)
    (p := (·.reaches distance)) (q := (·.reaches 0)) fun x _ reaches =>
      (pointed x).mpr (Member.reaches_iff.mp reaches).1
  rw [split, List.countP_append, List.countP_append]
  refine Iff.trans ⟨fun _ => by omega, fun _ => by omega⟩ (between.trans ?_)
  simp only [pointed]
  constructor
  · intro each j x lo hi hx
    refine each x (List.mem_iff_getElem?.mpr ⟨j - k, ?_⟩)
    rw [List.getElem?_drop, Nat.add_sub_cancel' lo, List.getElem?_take, if_pos hi, hx]
  · intro each x hx
    obtain ⟨j, hj⟩ := List.mem_iff_getElem?.mp hx
    rw [List.getElem?_drop, List.getElem?_take] at hj
    split at hj
    · rename_i hi
      exact each (k + j) x (by omega) hi hj
    · cases hj

theorem interleavedPlace_before {k : Nat} {m : Member} (hm : members[k]? = some m) :
    interleavedPlace members k m.before =
      slotsBefore members 0 + (members.take k).countP (·.reaches 0) := by
  rw [interleavedPlace_eq hm, Int.sub_self]

/-- The slots of two members at a distance from their address points are moved equally, just if
all defined members from the one up to the other take part in the round of the distance. -/
theorem interleavedPlace_distance {k l : Nat} {m m' : Member} (le : k ≤ l)
    (hm : members[k]? = some m) (hm' : members[l]? = some m') {distance : Int}
    (lo : -(m.before : Int) ≤ distance) (lo' : -(m'.before : Int) ≤ distance) :
    (interleavedPlace members l (m'.before + distance).toNat : Int) -
        interleavedPlace members l m'.before =
      interleavedPlace members k (m.before + distance).toNat -
        interleavedPlace members k m.before ↔
    ∀ (j : Nat) (x : Member), k ≤ j → j < l → members[j]? = some x → x.node.isDefined = true →
      x.reaches distance = true := by
  have back : (((m.before + distance).toNat : Nat) : Int) - m.before = distance := by omega
  have back' : (((m'.before + distance).toNat : Nat) : Int) - m'.before = distance := by omega
  rw [← countP_take_carried le, interleavedPlace_before hm, interleavedPlace_before hm',
    interleavedPlace_eq hm, interleavedPlace_eq hm', back, back']
  omega

/-- A slot of a member is at the same distance from its address point in a later member, just if
all defined members from the one up to the other take part in its round. -/
theorem interleavedPlace_carried {k l : Nat} {m m' : Member} (lt : k < l)
    (hm : members[k]? = some m) (hm' : members[l]? = some m') (fewer : m.before ≤ m'.before)
    (i : Nat) :
    (interleavedPlace members l (m'.before - m.before + i) : Int) -
        interleavedPlace members l m'.before =
      interleavedPlace members k i - interleavedPlace members k m.before ↔
    ∀ (j : Nat) (x : Member), k ≤ j → j < l → members[j]? = some x → x.node.isDefined = true →
      x.reaches ((i : Int) - m.before) = true := by
  have own : ((m.before : Int) + ((i : Int) - m.before)).toNat = i := by omega
  have other : ((m'.before : Int) + ((i : Int) - m.before)).toNat = m'.before - m.before + i := by
    omega
  have moved := interleavedPlace_distance (Nat.le_of_lt lt) hm hm'
    (show -(m.before : Int) ≤ (i : Int) - m.before by omega) (by omega)
  rwa [own, other] at moved

theorem arranges_interleaved (sep : Separate members) :
    Arranges members (interleaved members) (interleavedPlace members) := by
  have reaches (k : Nat) (m : Member) (hm : members[k]? = some m)
      (defined : m.node.isDefined = true) (i : Nat) (lt : i < m.extent) :
      m.reaches ((i : Int) - m.before) = true :=
    ((sep.fits m (List.mem_of_getElem? hm) defined).reaches_iff_lt defined).mpr lt
  have inside (k : Nat) (m : Member) (hm : members[k]? = some m)
      (defined : m.node.isDefined = true) : m.before < m.extent :=
    (sep.fits m (List.mem_of_getElem? hm) defined).before_lt
  exact {
    once := entriesOnce_interleaved sep
    only := fun s hs _ => mem_interleaved sep.fits hs
    placed := fun k m hm defined i lt => placed_interleaved sep hm defined lt
    ascending := fun k m hm defined i j lt within => by
      have before := interleavedPlace_lt hm (reaches k m hm defined i (by omega))
        ((j : Int) - m.before) (by omega)
      rw [interleavedPlace_eq hm j]
      omega
    positive := fun _ _ _ => Nat.one_pos
    aligned := fun k m _ _ => Nat.one_dvd _
    preordered := fun k l m m' lt hm hm' defined _ => by
      have own := reaches k m hm defined m.before (inside k m hm defined)
      rw [Int.sub_self] at own
      have := countP_take_lt hm own lt
      rw [interleavedPlace_before hm, interleavedPlace_before hm']
      omega
    carried := fun k l m m' lt hm hm' defined _ fits i within => by
      have fewer := (fits l m' (Nat.le_of_lt lt) (Nat.le_refl l) hm').1
      have own := Member.reaches_iff.mp (reaches k m hm defined i within)
      refine (interleavedPlace_carried lt hm hm' fewer i).mpr ?_
      intro j x lo hi hx there
      obtain ⟨front, back⟩ := fits j x lo (Nat.le_of_lt hi) hx
      exact Member.reaches_iff.mpr ⟨there, by omega, by omega⟩
    level := fun j k l x m m' hx hm hm' defined first last i within _ lo hi => by
      rcases Nat.lt_trichotomy i x.before with less | same | more
      · have := interleavedPlace_lt hx (reaches j x hx defined i within) 0 (by omega)
        rw [interleavedPlace_before hm] at lo
        omega
      · exact same
      · have own := reaches l m' hm' last m'.before (inside l m' hm' last)
        have before := interleavedPlace_lt hm' own ((i : Int) - x.before) (by omega)
        rw [interleavedPlace_eq hx] at hi
        omega }

end VtableCloud
