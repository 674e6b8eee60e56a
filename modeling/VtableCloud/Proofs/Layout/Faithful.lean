import Mathlib.Data.List.Nodup
import VtableCloud.Proofs.Arrangement.Arranges

/-!
# Tables that hold their members faithfully

A table is faithful if it holds the slots of the defined members, each once and those of one
member in order, and nothing else but filler.

* `Faithful`, `InRows`: what is asked of a table, and of an ordered one in addition;
* `Member.Placed`: where a table holds the slots of a member;
* `Member.Placed.contiguous_iff`, `Member.Placed.row_iff`: when these positions are a row;
* `faithful_iff`: a table is faithful if it holds defined members, each of them at some positions;
* `Faithful.nodup_positions`: these positions are all different.
-/

namespace VtableCloud

/-- An index is that of a slot of the member, or of the padding in front of it. -/
def Member.Owns (m : Member) (index : Int) : Prop :=
  (m.node.start : Int) - m.pad ≤ index ∧ index ≤ m.node.last

/-- A table holds the slots of the defined members, each once and those of one member in order,
and nothing else but filler. -/
structure Faithful (members : List Member) (slots : List Slot) : Prop where
  owned : ∀ key index, .entry key index ∈ slots →
    ∃ m ∈ members, m.key = key ∧ m.node.isDefined = true ∧ m.Owns index
  once : ∀ m ∈ members, m.node.isDefined = true → ∀ index, m.Owns index →
    slots.count (.entry m.key index) = 1
  ordered : ∀ m ∈ members, m.node.isDefined = true → ∀ (p q : Nat) (i j : Int),
    slots[p]? = some (.entry m.key i) → slots[q]? = some (.entry m.key j) → i < j → p < q

/-- Between two slots of the member stand only slots of it. -/
def Member.Contiguous (m : Member) (slots : List Slot) : Prop :=
  ∀ (p q r : Nat) (i k : Int), p < q → q < r → slots[p]? = some (.entry m.key i) →
    slots[r]? = some (.entry m.key k) → ∃ j, slots[q]? = some (.entry m.key j)

/-- There is an alignment, and the address point of the member stands at a multiple of it. -/
def Member.Aligned (m : Member) (table : Arrangement) : Prop :=
  0 < table.alignment ∧
    ∀ p : Nat, table.slots[p]? = some (.entry m.key m.node.addressPoint) → table.alignment ∣ p

/-- Each defined member has its slots in a row, with its address point aligned. -/
def InRows (members : List Member) (table : Arrangement) : Prop :=
  ∀ m ∈ members, m.node.isDefined = true → m.Contiguous table.slots ∧ m.Aligned table

theorem Member.Fits.owns_iff {m : Member} (fits : m.Fits) {index : Int} :
    m.Owns index ↔ ∃ i < m.extent, index = m.first + i := by
  have first := fits.first_eq
  have last := fits.last_eq
  rw [Owns, ← first]
  constructor
  · rintro ⟨lo, hi⟩
    exact ⟨(index - m.first).toNat, by omega, by omega⟩
  · rintro ⟨i, lt, rfl⟩
    exact ⟨by omega, by omega⟩

/-- The slots of the member stand at these positions in a table, in order, and nowhere else. -/
structure Member.Placed (m : Member) (slots : List Slot) (place : Nat → Nat) : Prop where
  here : ∀ i < m.extent, slots[place i]? = some (m.entry i)
  only : ∀ (p : Nat) index, slots[p]? = some (.entry m.key index) →
    ∃ i < m.extent, index = m.first + i ∧ p = place i
  ascending : ∀ i j, i < j → j < m.extent → place i < place j

namespace Member.Placed

variable {m : Member} {slots : List Slot} {place : Nat → Nat}

theorem eq_of_entry (placed : m.Placed slots place) {p i : Nat}
    (hp : slots[p]? = some (m.entry i)) : p = place i := by
  obtain ⟨j, -, index, rfl⟩ := placed.only p _ hp
  obtain rfl : i = j := by omega
  rfl

theorem idxOf?_eq (placed : m.Placed slots place) {i : Nat} (lt : i < m.extent) :
    slots.idxOf? (m.entry i) = some (place i) := by
  obtain ⟨inside, eq⟩ := List.getElem?_eq_some_iff.mp (placed.here i lt)
  refine List.idxOf?_eq_some_iff.mpr ⟨inside, eq, fun j before same => ?_⟩
  have := placed.eq_of_entry (List.getElem?_eq_some_iff.mpr ⟨by omega, same⟩)
  omega

theorem positions_eq (placed : m.Placed slots place) :
    m.positions slots = (List.range m.extent).map place := by
  rw [Member.positions_eq, entries, List.filterMap_map, ← List.filterMap_eq_map]
  exact List.filterMap_congr fun i hi => placed.idxOf?_eq (List.mem_range.mp hi)

theorem count_eq_one (placed : m.Placed slots place) {i : Nat} (lt : i < m.extent) :
    slots.count (m.entry i) = 1 := by
  refine count_eq_one_iff.mpr ⟨place i, fun q => ⟨placed.eq_of_entry, ?_⟩⟩
  rintro rfl
  exact placed.here i lt

/-- Between two slots of the member stand at least as many positions as offsets. -/
theorem gap (placed : m.Placed slots place) {i : Nat} :
    ∀ d, i + d < m.extent → place i + d ≤ place (i + d) := by
  intro d
  induction d with
  | zero => exact fun _ => Nat.le_refl _
  | succ d ih =>
    intro inside
    have shorter := ih (by omega)
    have next := placed.ascending (i + d) (i + (d + 1)) (by omega) inside
    omega

/-- The slots of the member stand in a row if the last stands as far from the first as it does in
the member. -/
theorem row_iff (placed : m.Placed slots place) (some : 0 < m.extent) :
    place (m.extent - 1) - place 0 + 1 = m.extent ↔ ∀ i < m.extent, place i = place 0 + i := by
  have whole := placed.gap (i := 0) (m.extent - 1) (by omega)
  rw [Nat.zero_add] at whole
  constructor
  · intro last i lt
    have front := placed.gap (i := 0) i (by omega)
    have back := placed.gap (i := i) (m.extent - 1 - i) (by omega)
    rw [Nat.zero_add] at front
    rw [show i + (m.extent - 1 - i) = m.extent - 1 by omega] at back
    omega
  · intro each
    have last := each (m.extent - 1) (by omega)
    omega

/-- The slots of the member stand in a row if nothing else stands between two of them. -/
theorem contiguous_iff (placed : m.Placed slots place) :
    m.Contiguous slots ↔ ∀ i < m.extent, place i = place 0 + i := by
  constructor
  · intro contiguous i
    induction i with
    | zero => exact fun _ => rfl
    | succ i ih =>
      intro lt
      have row := ih (by omega)
      have next := placed.ascending i (i + 1) (Nat.lt_succ_self i) lt
      by_contra apart
      -- Otherwise the position behind slot `i` holds a slot between `i` and `i + 1`.
      obtain ⟨index, between⟩ := contiguous (place i) (place i + 1) (place (i + 1)) _ _
        (by omega) (by omega) (placed.here i (by omega)) (placed.here (i + 1) lt)
      obtain ⟨j, inside, -, position⟩ := placed.only _ _ between
      rcases Nat.lt_trichotomy j i with less | same | more
      · have := placed.ascending j i less (by omega)
        omega
      · subst same
        omega
      · rcases Nat.lt_or_eq_of_le (Nat.succ_le_of_lt more) with later | last
        · have := placed.ascending (i + 1) j later inside
          omega
        · obtain rfl : i + 1 = j := last
          omega
  · intro row p q r i k before after hp hr
    obtain ⟨a, ha, -, rfl⟩ := placed.only p i hp
    obtain ⟨b, hb, -, rfl⟩ := placed.only r k hr
    rw [row a ha] at before
    rw [row b hb] at after
    have inside : q - place 0 < m.extent := by omega
    have here := placed.here _ inside
    rw [row _ inside, show place 0 + (q - place 0) = q by omega] at here
    exact ⟨_, here⟩

/-- The address point of the member is aligned where it stands. -/
theorem aligned_iff (fits : m.Fits) {alignment : Nat} (placed : m.Placed slots place) :
    m.Aligned ⟨slots, alignment⟩ ↔ 0 < alignment ∧ alignment ∣ place m.before := by
  have entry : Slot.entry m.key m.node.addressPoint = m.entry m.before := by
    rw [entry, fits.addressPoint_eq]
  rw [Member.Aligned, entry]
  refine and_congr_right fun _ => ?_
  constructor
  · intro aligned
    exact aligned _ (placed.here _ fits.before_lt)
  · rintro dvd p hp
    rw [placed.eq_of_entry hp]
    exact dvd

end Member.Placed

/-- A table is faithful if all its slots are of defined members and each of these has its slots at
some positions, in order. -/
theorem faithful_iff {members : List Member} {slots : List Slot} (sep : Separate members) :
    Faithful members slots ↔
      (∀ key index, .entry key index ∈ slots →
        ∃ m ∈ members, m.key = key ∧ m.node.isDefined = true) ∧
      ∀ m ∈ members, m.node.isDefined = true → ∃ place, m.Placed slots place := by
  constructor
  · intro faithful
    refine ⟨fun key index listed => ?_, fun m hm defined => ?_⟩
    · obtain ⟨m, hm, same, defined, -⟩ := faithful.owned key index listed
      exact ⟨m, hm, same, defined⟩
    · have own := sep.fits m hm defined
      have single (i : Nat) (lt : i < m.extent) :
          ∃ p : Nat, ∀ q : Nat, slots[q]? = some (m.entry i) ↔ q = p :=
        count_eq_one_iff.mp (faithful.once m hm defined _ (own.owns_iff.mpr ⟨i, lt, rfl⟩))
      have here (i : Nat) (lt : i < m.extent) :
          slots[slots.idxOf (m.entry i)]? = some (m.entry i) := by
        obtain ⟨p, each⟩ := single i lt
        have listed := List.mem_of_getElem? ((each p).mpr rfl)
        rw [List.getElem?_eq_getElem (List.idxOf_lt_length_iff.mpr listed), List.getElem_idxOf]
      refine ⟨fun i => slots.idxOf (m.entry i), here, fun p index hp => ?_, fun i j lt inside => ?_⟩
      · obtain ⟨m', hm', same, -, owns⟩ := faithful.owned _ index (List.mem_of_getElem? hp)
        obtain rfl := sep.keys.eq_of_key hm' hm same
        obtain ⟨i, lt, rfl⟩ := own.owns_iff.mp owns
        obtain ⟨q, each⟩ := single i lt
        exact ⟨i, lt, rfl, ((each p).mp hp).trans ((each _).mp (here i lt)).symm⟩
      · exact faithful.ordered m hm defined _ _ _ _ (here i (by omega)) (here j inside) (by omega)
  · rintro ⟨owned, placed⟩
    constructor
    · intro key index listed
      obtain ⟨m, hm, rfl, defined⟩ := owned key index listed
      obtain ⟨place, placed⟩ := placed m hm defined
      obtain ⟨p, hp⟩ := List.mem_iff_getElem?.mp listed
      obtain ⟨i, lt, rfl, -⟩ := placed.only p index hp
      exact ⟨m, hm, rfl, defined, (sep.fits m hm defined).owns_iff.mpr ⟨i, lt, rfl⟩⟩
    · intro m hm defined index owns
      obtain ⟨place, placed⟩ := placed m hm defined
      obtain ⟨i, lt, rfl⟩ := (sep.fits m hm defined).owns_iff.mp owns
      exact placed.count_eq_one lt
    · intro m hm defined p q i j hp hq less
      obtain ⟨place, placed⟩ := placed m hm defined
      obtain ⟨a, -, rfl, rfl⟩ := placed.only p i hp
      obtain ⟨b, lt, rfl, rfl⟩ := placed.only q j hq
      exact placed.ascending a b (by omega) lt

namespace Faithful

variable {members : List Member} {slots : List Slot}

theorem placed (faithful : Faithful members slots) (sep : Separate members) {m : Member}
    (hm : m ∈ members) (defined : m.node.isDefined = true) : ∃ place, m.Placed slots place :=
  ((faithful_iff sep).mp faithful).2 m hm defined

theorem exists_entry (faithful : Faithful members slots) (sep : Separate members) {s : Slot}
    (hs : s ∈ slots) (some : s ≠ .dummy) :
    ∃ m ∈ members, m.node.isDefined = true ∧ ∃ i < m.extent, s = m.entry i := by
  cases s with
  | dummy => exact absurd rfl some
  | entry key index =>
    obtain ⟨m, hm, rfl, defined, owns⟩ := faithful.owned key index hs
    obtain ⟨i, lt, rfl⟩ := (sep.fits m hm defined).owns_iff.mp owns
    exact ⟨m, hm, defined, i, lt, rfl⟩

theorem entriesOnce (faithful : Faithful members slots) (sep : Separate members) :
    EntriesOnce slots := by
  refine List.pairwise_iff_getElem.mpr fun p q hp hq before same => ?_
  by_contra some
  obtain ⟨m, hm, defined, i, lt, eq⟩ :=
    faithful.exists_entry sep (List.getElem_mem hp) some
  obtain ⟨place, placed⟩ := faithful.placed sep hm defined
  have first := placed.eq_of_entry (List.getElem?_eq_some_iff.mpr ⟨hp, eq⟩)
  have second := placed.eq_of_entry (List.getElem?_eq_some_iff.mpr ⟨hq, same ▸ eq⟩)
  omega

/-- No position is recorded twice. -/
theorem nodup_positions (faithful : Faithful members slots) (sep : Separate members) :
    ((members.filter (·.node.isDefined)).flatMap (·.positions slots)).Nodup := by
  have standing {m : Member} (hm : m ∈ members.filter (·.node.isDefined)) {p : Nat}
      (hp : p ∈ m.positions slots) : ∃ i, slots[p]? = some (m.entry i) := by
    obtain ⟨member, defined⟩ := List.mem_filter.mp hm
    obtain ⟨place, placed⟩ := faithful.placed sep member defined
    rw [placed.positions_eq] at hp
    obtain ⟨i, lt, rfl⟩ := List.mem_map.mp hp
    exact ⟨i, placed.here i (List.mem_range.mp lt)⟩
  refine List.nodup_flatMap.mpr ⟨fun m hm => ?_, ?_⟩
  · obtain ⟨member, defined⟩ := List.mem_filter.mp hm
    obtain ⟨place, placed⟩ := faithful.placed sep member defined
    rw [placed.positions_eq, List.nodup_iff_pairwise_ne, List.pairwise_map]
    refine List.pairwise_lt_range.imp_of_mem fun _ hj lt => Nat.ne_of_lt ?_
    exact placed.ascending _ _ lt (List.mem_range.mp hj)
  · have keys := (List.pairwise_map.mp sep.keys).filter (·.node.isDefined)
    refine keys.imp_of_mem fun {m m'} hm hm' ne p hp hp' => ne ?_
    obtain ⟨i, here⟩ := standing hm hp
    obtain ⟨j, here'⟩ := standing hm' hp'
    exact Member.key_of_entry_eq (Option.some.inj (here.symm.trans here'))

end Faithful

end VtableCloud
