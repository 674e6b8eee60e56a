import VtableCloud.Record.Defect
import VtableCloud.Proofs.Lists

/-!
# Records without a defect

The checks run through the sub-vtables once and compare each only with the one before. A record
that passes them is well formed all the same.

* `SubVtable.defect?_eq_none_iff`: what the checks of one sub-vtable amount to;
* `SubVtable.SoundBehind`, `AllSound`: sub-vtables that break no rule, each compared with all that
  come before it;
* `SubVtable.sound_iff_soundBehind`: behind sound ones, the one before stands for all of them;
* `allSound_of_firstDefect?`: what passes the checks breaks no rule;
* `ClassRecord.wellFormed_iff`: a record is well formed if its sub-vtables break no rule and its
  elements reach as far as they do;
* `ClassRecord.wellFormed_of_defect?`: a record that passes all checks is well formed.
-/

namespace VtableCloud

namespace SubVtable

variable {position : Nat} {previousLast : Option Nat} {s : SubVtable}

/-- What a sub-vtable without a defect looks like at its position, given where the one
before it ends. -/
structure Sound (position : Nat) (previousLast : Option Nat) (s : SubVtable) : Prop where
  numbered : s.order = position
  ascending : s.start ≤ s.last
  pointed : s.start ≤ s.addressPoint ∧ s.addressPoint ≤ s.last
  apart : ∀ previous ∈ previousLast, previous < s.start
  rooted : 0 < s.order → s.parents.keys ≠ []
  functions : ∀ f ∈ s.functions, f.offset < s.width

theorem defect?_eq_none_iff :
    s.defect? position previousLast = none ↔ s.Sound position previousLast := by
  constructor
  · intro passed
    rw [defect?] at passed
    split at passed
    · cases passed
    rename_i numbered
    split at passed
    · cases passed
    rename_i ascending
    split at passed
    · cases passed
    rename_i pointed
    split at passed
    · cases passed
    rename_i apart
    split at passed
    · cases passed
    rename_i rooted
    exact {
      numbered := Classical.not_not.mp numbered
      ascending := Nat.not_lt.mp ascending
      pointed := contains_iff.mp (Bool.of_not_eq_false pointed)
      apart := by simpa using apart
      rooted := fun below none => rooted ⟨below, none⟩
      functions := by simpa using passed }
  · intro sound
    have apart : previousLast.filter (s.start ≤ ·) = none := by
      simpa using sound.apart
    have rooted : ¬ (0 < s.order ∧ s.parents.keys = []) := by
      rintro ⟨below, none⟩
      exact sound.rooted below none
    rw [defect?, if_neg (by simp [sound.numbered]), if_neg (Nat.not_lt.mpr sound.ascending),
      contains_iff.mpr sound.pointed, if_neg (by simp), apart]
    simpa [rooted] using sound.functions

/-- The sub-vtable breaks no rule where it stands behind others. -/
structure SoundBehind (before : List SubVtable) (s : SubVtable) : Prop where
  numbered : s.order = before.length
  pointed : s.start ≤ s.addressPoint ∧ s.addressPoint ≤ s.last
  apart : ∀ t ∈ before, t.last < s.start
  rooted : before ≠ [] → s.parents.keys ≠ []
  functions : ∀ f ∈ s.functions, f.offset < s.width

end SubVtable

/-- The sub-vtable at a position, if there is one, breaks no rule. -/
def SoundAt (subs : List SubVtable) (i : Nat) : Prop :=
  ∀ s : SubVtable, subs[i]? = some s → s.SoundBehind (subs.take i)

def AllSound (subs : List SubVtable) : Prop := ∀ i, SoundAt subs i

/-- Where the last of some sub-vtables ends. -/
def endOf (subs : List SubVtable) : Option Nat := subs.getLast?.map (·.last)

section Behind

variable {before rest : List SubVtable} {s : SubVtable}

theorem allSound_nil : AllSound [] := by
  intro i s hs
  cases hs

theorem AllSound.behind (all : AllSound (before ++ s :: rest)) : s.SoundBehind before := by
  have sound := all before.length s (by simp)
  rwa [List.take_left] at sound

theorem AllSound.snoc (all : AllSound before) (sound : s.SoundBehind before) :
    AllSound (before ++ [s]) := by
  intro i t ht
  by_cases inside : i < before.length
  · rw [List.getElem?_append_left inside] at ht
    rw [List.take_append_of_le_length (Nat.le_of_lt inside)]
    exact all i t ht
  · have last : i = before.length := by
      have lt := (List.getElem?_eq_some_iff.mp ht).1
      simp at lt
      omega
    subst last
    obtain rfl : s = t := by simpa using ht
    rwa [List.take_left]

/-- A sub-vtable that starts after the last of some sound ones starts after all of them. -/
theorem AllSound.apart (all : AllSound before) :
    (∀ previous ∈ endOf before, previous < s.start) ↔ ∀ t ∈ before, t.last < s.start := by
  cases before using List.reverseRecOn with
  | nil => simp [endOf]
  | append_singleton front last =>
    have sound := all.behind
    simp only [endOf, List.getLast?_concat, Option.map_some, Option.mem_some_iff, forall_eq']
    constructor
    · intro after t ht
      rcases List.mem_append.mp ht with earlier | here
      · have first := sound.apart t earlier
        have ascending := sound.pointed
        omega
      · obtain rfl := List.mem_singleton.mp here
        exact after
    · intro each
      exact each last (by simp)

theorem SubVtable.sound_iff_soundBehind (all : AllSound before) :
    s.Sound before.length (endOf before) ↔ s.SoundBehind before := by
  have first : before ≠ [] ↔ 0 < before.length := List.length_pos_iff.symm
  constructor
  · intro sound
    have numbered := sound.numbered
    exact {
      numbered := numbered
      pointed := sound.pointed
      apart := all.apart.mp sound.apart
      rooted := fun behind => sound.rooted (numbered ▸ first.mp behind)
      functions := sound.functions }
  · intro sound
    have numbered := sound.numbered
    exact {
      numbered := numbered
      ascending := Nat.le_trans sound.pointed.1 sound.pointed.2
      pointed := sound.pointed
      apart := all.apart.mpr sound.apart
      rooted := fun below => sound.rooted (first.mpr (numbered ▸ below))
      functions := sound.functions }

/-- The checks pass only sub-vtables all of which are sound. -/
theorem allSound_of_firstDefect? : ∀ {before : List SubVtable}, AllSound before →
    firstDefect? before.length (endOf before) rest = none → AllSound (before ++ rest) := by
  induction rest with
  | nil =>
    intro before all _
    rwa [List.append_nil]
  | cons s rest ih =>
    intro before all passed
    rw [firstDefect?] at passed
    split at passed
    · cases passed
    · rename_i none
      have sound := (SubVtable.sound_iff_soundBehind all).mp (SubVtable.defect?_eq_none_iff.mp none)
      have next := ih (all.snoc sound)
      simp only [List.length_append, List.length_singleton, endOf, List.getLast?_concat,
        Option.map_some, List.append_assoc, List.singleton_append] at next
      exact next passed

end Behind

namespace ClassRecord

variable {r : ClassRecord}

theorem last_le_lastSlot {s : SubVtable} (hs : s ∈ r.subVtables) :
    s.last ≤ r.lastSlot :=
  (le_foldl_max _ 0).2 s.last (List.mem_map_of_mem hs)

/-- A record is well formed if it has sub-vtables, all of them are sound, and the elements reach
as far as they do. -/
theorem wellFormed_iff : r.WellFormed ↔ r.subVtables ≠ [] ∧ AllSound r.subVtables ∧
    (r.isDefined = true → ∀ s ∈ r.subVtables, s.last < r.elements.length) := by
  constructor
  · intro wf
    refine ⟨wf.inhabited, fun i s hs => ?_, wf.elements⟩
    have member := List.mem_of_getElem? hs
    have inside : i < r.subVtables.length := (List.getElem?_eq_some_iff.mp hs).1
    exact {
      numbered := by simp [wf.numbered i s hs, Nat.le_of_lt inside]
      pointed := wf.pointed s member
      apart := by
        have split := take_append_cons_drop hs
        have disjoint := wf.disjoint
        rw [← split, List.pairwise_append] at disjoint
        exact fun t ht => disjoint.2.2 t ht s (by simp)
      rooted := by
        intro behind
        apply wf.rooted s member
        rw [wf.numbered i s hs]
        apply Nat.pos_of_ne_zero
        rintro rfl
        exact behind rfl
      functions := wf.functions s member }
  · rintro ⟨inhabited, all, elements⟩
    have sound : ∀ s ∈ r.subVtables, ∃ i, r.subVtables[i]? = some s ∧
        s.SoundBehind (r.subVtables.take i) := by
      intro s hs
      obtain ⟨i, hi⟩ := List.mem_iff_getElem?.mp hs
      exact ⟨i, hi, all i s hi⟩
    exact {
      inhabited := inhabited
      numbered := by
        intro i s hs
        have inside : i < r.subVtables.length := (List.getElem?_eq_some_iff.mp hs).1
        rw [(all i s hs).numbered, List.length_take, Nat.min_eq_left (Nat.le_of_lt inside)]
      pointed := fun s hs => (sound s hs).elim fun _ at_ => at_.2.pointed
      disjoint := by
        rw [List.pairwise_iff_getElem]
        intro i j hi hj before
        apply (all j _ (List.getElem?_eq_getElem hj)).apart
        exact List.mem_take_iff_getElem.mpr ⟨i, by omega, rfl⟩
      rooted := by
        intro s hs below
        obtain ⟨i, hi, here⟩ := sound s hs
        apply here.rooted
        rw [here.numbered] at below
        exact List.length_pos_iff.mp below
      functions := fun s hs => (sound s hs).elim fun _ at_ => at_.2.functions
      elements := elements }

theorem wellFormed_of_defect? (passed : r.defect? = none) : r.WellFormed := by
  rw [defect?] at passed
  split at passed
  · cases passed
  rename_i inhabited
  split at passed
  · cases passed
  rename_i checked
  split at passed
  · cases passed
  rename_i enough
  apply wellFormed_iff.mpr
  refine ⟨inhabited, allSound_of_firstDefect? allSound_nil checked, fun defined s hs => ?_⟩
  have long := Nat.not_le.mp fun le => enough ⟨defined, le⟩
  exact Nat.lt_of_le_of_lt (last_le_lastSlot hs) long

end ClassRecord

end VtableCloud
