import Mathlib.Data.List.Basic
import VtableCloud.Arrangement.Interleaved
import VtableCloud.Proofs.Arrangement.Arranges

/-!
# The rounds of an interleaved table

The two halves of an interleaved table are given in rounds by one loop that runs in two
directions. Where the numbers of the members are words, rounds before and after the address
points are one family: the round at a signed distance holds the slots at this distance from
their address points.

* `Rounds`: the run of the loop, which has no more than one outcome (`Rounds.unique`);
* `Direction.rounds_run`, `interleaved_rounds`: the loop ends within the rounds that it is given;
* `Direction.advance_cursor`, `Direction.round_cursors`: where the cursors stand after some
  rounds, and what the next one gives;
* `Direction.allRounds_eq`: the rounds, by their distances.
-/

namespace VtableCloud

/-- The loop gives these rounds and ends. -/
inductive Rounds (d : Direction) : List Cursor → List (List Slot) → Prop
  | done {cursors : List Cursor} (empty : d.round cursors = []) : Rounds d cursors []
  | more {cursors : List Cursor} {rounds : List (List Slot)} (some : d.round cursors ≠ [])
      (rest : Rounds d (cursors.map d.advance) rounds) :
      Rounds d cursors (d.round cursors :: rounds)

/-- The loop has no more than one outcome. -/
theorem Rounds.unique {d : Direction} {cursors : List Cursor} {rounds others : List (List Slot)}
    (run : Rounds d cursors rounds) (other : Rounds d cursors others) : rounds = others := by
  induction run generalizing others with
  | done empty =>
    cases other with
    | done => rfl
    | more some => exact absurd empty some
  | more some _ ih =>
    cases other with
    | done empty => exact absurd empty some
    | more _ rest => rw [ih rest]

namespace Direction

variable {d : Direction}

theorem remaining_iff_left_pos {c : Cursor} : d.remaining c = true ↔ 0 < d.left c := by
  cases d with
  | forward =>
    show decide (c.next ≤ c.member.node.last) = true ↔ 0 < (c.member.node.last + 1 - c.next).toNat
    rw [decide_eq_true_iff]
    omega
  | backward =>
    show decide (c.member.first ≤ c.next) = true ↔ 0 < (c.next + 1 - c.member.first).toNat
    rw [decide_eq_true_iff]
    omega

/-- In each round a member gives one of the slots that it has left. -/
theorem left_advance (c : Cursor) : d.left (d.advance c) = d.left c - 1 := by
  by_cases some : d.remaining c = true
  · rw [advance, if_pos some]
    cases d with
    | forward =>
      show (c.member.node.last + 1 - (c.next + 1)).toNat =
        (c.member.node.last + 1 - c.next).toNat - 1
      omega
    | backward =>
      show (c.next + -1 + 1 - c.member.first).toNat = (c.next + 1 - c.member.first).toNat - 1
      omega
  · rw [advance, if_neg some]
    have none := mt remaining_iff_left_pos.mpr some
    omega

/-- The loop ends if it may make as many rounds as any member has slots left. -/
theorem rounds_run {limit : Nat} {cursors : List Cursor}
    (enough : ∀ c ∈ cursors, d.left c ≤ limit) :
    Rounds d cursors (d.rounds limit cursors) := by
  induction limit generalizing cursors with
  | zero =>
    apply Rounds.done
    rw [round, List.map_eq_nil_iff, List.filter_eq_nil_iff]
    intro c hc some
    exact absurd (remaining_iff_left_pos.mp some) (by have := enough c hc; omega)
  | succ limit ih =>
    have fewer : ∀ c ∈ cursors.map d.advance, d.left c ≤ limit := by
      intro moved listed
      obtain ⟨c, hc, rfl⟩ := List.mem_map.mp listed
      rw [left_advance]
      have := enough c hc
      omega
    rw [rounds]
    cases given : d.round cursors with
    | nil => exact Rounds.done given
    | cons slot slots =>
      have more := Rounds.more (given ▸ List.cons_ne_nil slot slots) (ih fewer)
      rwa [given] at more

theorem allRounds_run (members : List Member) :
    Rounds d (d.start members) (d.allRounds members) :=
  rounds_run fun c hc => (le_foldl_max _ 0).2 (d.left c) (List.mem_map_of_mem hc)

end Direction

/-- The table holds the rounds before the address points, the last one first, and then the rounds
from the address points on. -/
theorem interleaved_rounds (members : List Member) :
    ∃ front back, Rounds .backward (Direction.backward.start members) front ∧
      Rounds .forward (Direction.forward.start members) back ∧
      (interleaved members).slots = front.reverse.flatten ++ back.flatten :=
  ⟨_, _, Direction.allRounds_run members, Direction.allRounds_run members, rfl⟩

/-! ## Rounds by their distances -/

/-- The member is defined and has a slot at a distance from its address point. -/
def Member.reaches (m : Member) (distance : Int) : Bool :=
  m.node.isDefined && decide (-(m.before : Int) ≤ distance ∧ distance ≤ m.after)

theorem Member.reaches_iff {m : Member} {distance : Int} : m.reaches distance = true ↔
    m.node.isDefined = true ∧ -(m.before : Int) ≤ distance ∧ distance ≤ m.after := by
  simp [Member.reaches]

/-- The slots at a distance from the address points. -/
def roundAt (members : List Member) (distance : Int) : List Slot :=
  (members.filter (·.reaches distance)).map fun m =>
    .entry m.key ((m.node.addressPoint : Int) + distance)

namespace Direction

variable {d : Direction} {m : Member} {members : List Member}

/-- The distance of a round from the address points. -/
def distance : Direction → Nat → Int
  | forward, k => k
  | backward, k => -((k : Int) + 1)

/-- The number of slots that a member gives. -/
def depth : Direction → Member → Nat
  | forward, m => m.after + 1
  | backward, m => m.before

/-- The number of rounds until no member has slots left. -/
def count (d : Direction) (members : List Member) : Nat :=
  ((members.filter (·.node.isDefined)).map d.depth).foldl max 0

/-- Where the cursor of a member stands after some rounds. -/
def cursor (d : Direction) (k : Nat) (m : Member) : Cursor :=
  ⟨m, m.node.addressPoint + d.distance (min k (d.depth m))⟩

/-- Where the cursors of the defined members stand after some rounds. -/
def cursors (d : Direction) (members : List Member) (k : Nat) : List Cursor :=
  (members.filter (·.node.isDefined)).map (d.cursor k)

theorem origin_eq : d.origin = d.distance 0 := by
  cases d with
  | forward => rfl
  | backward => rfl

theorem cursors_zero : d.cursors members 0 = d.start members := by
  rw [cursors, start, origin_eq]
  exact List.map_congr_left fun m _ => by rw [cursor, Nat.zero_min]

theorem distance_succ (k : Nat) : d.distance (k + 1) = d.distance k + d.step := by
  cases d with
  | forward => rfl
  | backward =>
    show -(((k + 1 : Nat) : Int) + 1) = -((k : Int) + 1) + -1
    omega

theorem reaches_iff_lt_depth (defined : m.node.isDefined = true) {k : Nat} :
    m.reaches (d.distance k) = true ↔ k < d.depth m := by
  rw [Member.reaches_iff, and_iff_right defined]
  cases d with
  | forward =>
    show -(m.before : Int) ≤ k ∧ (k : Int) ≤ m.after ↔ k < m.after + 1
    omega
  | backward =>
    show -(m.before : Int) ≤ -((k : Int) + 1) ∧ -((k : Int) + 1) ≤ m.after ↔ k < m.before
    omega

/-- A member has slots left just as long as it has not given all of them. -/
theorem remaining_cursor (fits : m.Fits) {k : Nat} :
    d.remaining (d.cursor k m) = true ↔ k < d.depth m := by
  have point := fits.addressPoint_eq
  have last := fits.last_eq
  have extent := fits.extent_eq
  cases d with
  | forward =>
    show decide ((m.node.addressPoint : Int) + (min k (m.after + 1) : Nat) ≤ m.node.last) = true ↔
      k < m.after + 1
    rw [decide_eq_true_iff]
    omega
  | backward =>
    show decide (m.first ≤ (m.node.addressPoint : Int) + -(((min k m.before : Nat) : Int) + 1)) =
      true ↔ k < m.before
    rw [decide_eq_true_iff]
    omega

/-- After one more round the cursor stands where it is to stand. -/
theorem advance_cursor (fits : m.Fits) (k : Nat) :
    d.advance (d.cursor k m) = d.cursor (k + 1) m := by
  rw [advance]
  by_cases left : k < d.depth m
  · rw [if_pos ((remaining_cursor fits).mpr left), cursor, cursor,
      Nat.min_eq_left (Nat.le_of_lt left), Nat.min_eq_left left]
    simp only [distance_succ, Int.add_assoc]
  · have ended := Nat.le_of_not_lt left
    rw [if_neg fun more => left ((remaining_cursor fits).mp more), cursor, cursor,
      Nat.min_eq_right ended, Nat.min_eq_right (Nat.le_succ_of_le ended)]

/-- The next round is empty just if all rounds were made. -/
theorem roundAt_ne_nil_iff {k : Nat} :
    roundAt members (d.distance k) ≠ [] ↔ k < d.count members := by
  rw [count, lt_foldl_max_iff, roundAt, Ne, List.map_eq_nil_iff, List.filter_eq_nil_iff]
  constructor
  · intro some
    push Not at some
    obtain ⟨m, hm, reaches⟩ := some
    have defined := (Member.reaches_iff.mp reaches).1
    refine Or.inr ⟨d.depth m, List.mem_map_of_mem (List.mem_filter.mpr ⟨hm, defined⟩), ?_⟩
    exact (reaches_iff_lt_depth defined).mp reaches
  · rintro (none | ⟨depth, listed, left⟩) empty
    · exact absurd none (Nat.not_lt_zero k)
    · obtain ⟨m, hm, rfl⟩ := List.mem_map.mp listed
      obtain ⟨hm, defined⟩ := List.mem_filter.mp hm
      exact empty m hm ((reaches_iff_lt_depth defined).mpr left)

section

variable (fits : ∀ m ∈ members, m.node.isDefined = true → m.Fits)

include fits

/-- The round after some rounds gives the slots at its distance from the address points. -/
theorem round_cursors (k : Nat) :
    d.round (d.cursors members k) = roundAt members (d.distance k) := by
  rw [round, cursors, List.filter_map, List.map_map, List.filter_filter, roundAt]
  have same : ∀ m ∈ members, (((d.remaining ∘ d.cursor k) m) && m.node.isDefined) =
      m.reaches (d.distance k) := by
    intro m hm
    cases defined : m.node.isDefined with
    | false => rw [Bool.and_false, Member.reaches, defined, Bool.false_and]
    | true =>
      rw [Bool.and_true, Bool.eq_iff_iff, reaches_iff_lt_depth defined]
      exact remaining_cursor (fits m hm defined)
  rw [List.filter_congr same]
  refine List.map_congr_left fun m hm => ?_
  obtain ⟨-, reaches⟩ := List.mem_filter.mp hm
  have left := (reaches_iff_lt_depth (Member.reaches_iff.mp reaches).1).mp reaches
  show Slot.entry m.key (m.node.addressPoint + d.distance (min k (d.depth m))) = _
  rw [Nat.min_eq_left (Nat.le_of_lt left)]

theorem cursors_succ (k : Nat) :
    (d.cursors members k).map d.advance = d.cursors members (k + 1) := by
  rw [cursors, cursors, List.map_map]
  refine List.map_congr_left fun m hm => ?_
  obtain ⟨hm, defined⟩ := List.mem_filter.mp hm
  exact advance_cursor (fits m hm defined) k

/-- The rounds from some round on, by induction on how many there are. -/
theorem rounds_cursors_from {n k : Nat} (total : k + n = d.count members) :
    Rounds d (d.cursors members k)
      ((List.range' k n).map fun r => roundAt members (d.distance r)) := by
  induction n generalizing k with
  | zero =>
    apply Rounds.done
    rw [round_cursors fits]
    by_contra some
    have := roundAt_ne_nil_iff.mp some
    omega
  | succ n ih =>
    have some : roundAt members (d.distance k) ≠ [] := roundAt_ne_nil_iff.mpr (by omega)
    have rest := ih (k := k + 1) (by omega)
    rw [← cursors_succ fits] at rest
    rw [← round_cursors fits] at some
    rw [List.range'_succ, List.map_cons, ← round_cursors fits]
    exact Rounds.more some rest

/-- The loop gives one round for each distance at which a member has slots. -/
theorem allRounds_eq : d.allRounds members =
    (List.range (d.count members)).map fun r => roundAt members (d.distance r) := by
  refine (allRounds_run members).unique ?_
  rw [← cursors_zero, List.range_eq_range']
  exact rounds_cursors_from fits (Nat.zero_add _)

end

end Direction

end VtableCloud
