import Mathlib.Data.List.Basic
import VtableCloud.Range.Run

/-!
# Runs and the places they hold

* `Separated`, `Separated.ext`: runs that are not empty, stand in ascending order and leave gaps
  are known by the places they hold;
* `separated_coalesce`, `covers_coalesce`: any runs are turned into such runs with the same places;
* `separated_runsFrom`, `places_runsFrom`: the runs of marked places are such runs, and their
  places are the marked ones;
* `slices_runsFrom`: what a list holds at the places of the runs is its marked elements.
-/

namespace VtableCloud

namespace Run

/-- The places of a run, in order. -/
def places (r : Run) : List Nat := List.range' r.start r.length

/-- What a list holds at the places of a run. -/
def slice {α : Type} (r : Run) (l : List α) : List α := (l.drop r.start).take r.length

theorem mem_places {r : Run} {p : Nat} : p ∈ r.places ↔ r.contains p = true := by
  simp only [places, length, contains, List.mem_range'_1, Bool.and_eq_true, decide_eq_true_eq]
  omega

theorem total_eq (runs : List Run) : total runs = (runs.flatMap places).length := by
  induction runs with
  | nil => rfl
  | cons r runs ih => simp [total, ih, places]

/-- A place lies in as many runs as it is listed among their places. -/
theorem countP_contains (runs : List Run) (p : Nat) :
    runs.countP (·.contains p) = (runs.flatMap places).count p := by
  induction runs with
  | nil => rfl
  | cons r runs ih =>
    have once : r.places.Nodup := List.nodup_range'
    rw [List.countP_cons, List.flatMap_cons, List.count_append, ih, once.count, Nat.add_comm]
    simp only [mem_places]

theorem slice_eq {α : Type} (r : Run) (l : List α) : r.slice l = r.places.filterMap (l[·]?) := by
  rw [slice, places]
  generalize r.start = start
  induction r.length generalizing start with
  | zero => simp
  | succ n ih =>
    rw [List.range'_succ, List.filterMap_cons, ← ih]
    cases here : l[start]? with
    | none =>
      have short := List.getElem?_eq_none_iff.mp here
      simp [List.drop_eq_nil_of_le short, List.drop_eq_nil_of_le (Nat.le_succ_of_le short)]
    | some a =>
      obtain ⟨lt, rfl⟩ := List.getElem?_eq_some_iff.mp here
      rw [List.drop_eq_getElem_cons lt, List.take_succ_cons]

end Run

/-- Some of the runs holds a place. -/
def Covers (runs : List Run) (p : Nat) : Prop := ∃ r ∈ runs, r.start ≤ p ∧ p < r.stop

@[simp] theorem not_covers_nil {p : Nat} : ¬ Covers [] p := by
  simp [Covers]

@[simp] theorem covers_cons {r : Run} {runs : List Run} {p : Nat} :
    Covers (r :: runs) p ↔ (r.start ≤ p ∧ p < r.stop) ∨ Covers runs p := by
  simp [Covers]

/-- Runs from a place on that are not empty, stand in ascending order and leave gaps. -/
def Separated (i : Nat) (runs : List Run) : Prop :=
  (∀ r ∈ runs, i ≤ r.start ∧ r.start < r.stop) ∧ runs.Pairwise fun a b => a.stop < b.start

theorem separated_cons {i : Nat} {r : Run} {runs : List Run} :
    Separated i (r :: runs) ↔ i ≤ r.start ∧ r.start < r.stop ∧ Separated (r.stop + 1) runs := by
  constructor
  · rintro ⟨bounds, gaps⟩
    obtain ⟨later, gaps⟩ := List.pairwise_cons.mp gaps
    obtain ⟨low, inhabited⟩ := bounds r (by simp)
    exact ⟨low, inhabited, fun s hs => ⟨later s hs, (bounds s (by simp [hs])).2⟩, gaps⟩
  · rintro ⟨low, inhabited, bounds, gaps⟩
    refine ⟨fun s hs => ?_, List.pairwise_cons.mpr ⟨fun s hs => (bounds s hs).1, gaps⟩⟩
    rcases List.mem_cons.mp hs with rfl | hs
    · exact ⟨low, inhabited⟩
    · have := bounds s hs
      omega

theorem Separated.mono {i j : Nat} {runs : List Run} (sep : Separated j runs) (le : i ≤ j) :
    Separated i runs := by
  refine ⟨fun r hr => ?_, sep.2⟩
  have := sep.1 r hr
  omega

theorem Separated.le_of_covers {i p : Nat} {runs : List Run} (sep : Separated i runs)
    (covered : Covers runs p) : i ≤ p := by
  obtain ⟨r, hr, lo, -⟩ := covered
  have := sep.1 r hr
  omega

section Heads

variable {i j : Nat} {r s : Run} {a b : List Run}

/-- Runs that hold what others hold do not start after them. -/
theorem Separated.start_le (sepA : Separated i (r :: a)) (sepB : Separated j (s :: b))
    (sub : ∀ p, Covers (r :: a) p → Covers (s :: b) p) : s.start ≤ r.start := by
  obtain ⟨-, inhabitedR, -⟩ := separated_cons.mp sepA
  obtain ⟨-, inhabitedS, restB⟩ := separated_cons.mp sepB
  have covered : Covers (s :: b) r.start := sub r.start (by simp [inhabitedR])
  have sep : Separated s.start (s :: b) := separated_cons.mpr ⟨Nat.le_refl _, inhabitedS, restB⟩
  exact sep.le_of_covers covered

/-- Runs that hold what others hold and start where they do, do not stop before them. -/
theorem Separated.stop_le (sepB : Separated j (s :: b)) (start : r.start = s.start)
    (sub : ∀ p, Covers (r :: a) p → Covers (s :: b) p) : r.stop ≤ s.stop := by
  obtain ⟨-, inhabitedS, restB⟩ := separated_cons.mp sepB
  rcases Nat.lt_or_ge s.stop r.stop with lt | ge
  · -- Then the one run holds the place behind the other, where the other leaves a gap.
    have covered := sub s.stop (covers_cons.mpr (Or.inl ⟨by omega, lt⟩))
    rcases covers_cons.mp covered with inside | later
    · omega
    · have := restB.le_of_covers later
      omega
  · exact ge

end Heads

/-- Separated runs that hold the same places are the same. -/
theorem Separated.ext {a : List Run} :
    ∀ {b : List Run} {i j : Nat}, Separated i a → Separated j b →
      (∀ p, Covers a p ↔ Covers b p) → a = b := by
  induction a with
  | nil =>
    intro b i j _ sepB same
    cases b with
    | nil => rfl
    | cons s b =>
      have inhabited := (separated_cons.mp sepB).2.1
      exact absurd ((same s.start).mpr (by simp [inhabited])) not_covers_nil
  | cons r a ih =>
    intro b i j sepA sepB same
    cases b with
    | nil =>
      have inhabited := (separated_cons.mp sepA).2.1
      exact absurd ((same r.start).mp (by simp [inhabited])) not_covers_nil
    | cons s b =>
      have start : r.start = s.start := Nat.le_antisymm
        (sepB.start_le sepA fun p => (same p).mpr) (sepA.start_le sepB fun p => (same p).mp)
      have stop : r.stop = s.stop := Nat.le_antisymm
        (sepB.stop_le start fun p => (same p).mp) (sepA.stop_le start.symm fun p => (same p).mpr)
      obtain ⟨-, -, restA⟩ := separated_cons.mp sepA
      obtain ⟨-, -, restB⟩ := separated_cons.mp sepB
      have rest : a = b := by
        apply ih restA restB
        intro p
        have here := same p
        rw [covers_cons, covers_cons, start, stop] at here
        constructor
        · intro covered
          have beyond := restA.le_of_covers covered
          exact (here.mp (Or.inr covered)).resolve_left (by omega)
        · intro covered
          have beyond := restB.le_of_covers covered
          exact (here.mpr (Or.inr covered)).resolve_left (by omega)
      obtain rfl : r = s := by
        cases r
        cases s
        exact congrArg₂ Run.mk start stop
      rw [rest]

/-! ## Joining runs -/

/-- Runs that are not empty and stand in the order of their starts, from a place on. -/
def StartsFrom (i : Nat) (runs : List Run) : Prop :=
  (∀ r ∈ runs, i ≤ r.start ∧ r.start < r.stop) ∧ runs.Pairwise fun a b => a.start ≤ b.start

theorem startsFrom_cons {i : Nat} {r : Run} {runs : List Run} (h : StartsFrom i (r :: runs)) :
    i ≤ r.start ∧ r.start < r.stop ∧ StartsFrom r.start runs := by
  obtain ⟨bounds, ordered⟩ := h
  obtain ⟨later, ordered⟩ := List.pairwise_cons.mp ordered
  obtain ⟨low, inhabited⟩ := bounds r (by simp)
  exact ⟨low, inhabited, fun s hs => ⟨later s hs, (bounds s (by simp [hs])).2⟩, ordered⟩

theorem StartsFrom.mono {i j : Nat} {runs : List Run} (h : StartsFrom j runs) (le : i ≤ j) :
    StartsFrom i runs := by
  refine ⟨fun r hr => ?_, h.2⟩
  have := h.1 r hr
  omega

theorem separated_joinRuns {runs : List Run} :
    ∀ {last : Run}, last.start < last.stop → StartsFrom last.start runs →
      Separated last.start (joinRuns last runs) := by
  induction runs with
  | nil =>
    intro last inhabited _
    exact separated_cons.mpr ⟨Nat.le_refl _, inhabited, by simp [Separated]⟩
  | cons r runs ih =>
    intro last inhabited starts
    obtain ⟨low, inhabitedR, rest⟩ := startsFrom_cons starts
    unfold joinRuns
    split
    · exact ih (show last.start < max last.stop r.stop by omega) (rest.mono low)
    · have apart := (ih inhabitedR rest).mono (show last.stop + 1 ≤ r.start by omega)
      exact separated_cons.mpr ⟨Nat.le_refl _, inhabited, apart⟩

theorem covers_joinRuns {p : Nat} {runs : List Run} :
    ∀ {last : Run}, StartsFrom last.start runs →
      (Covers (joinRuns last runs) p ↔ Covers (last :: runs) p) := by
  induction runs with
  | nil => exact fun _ => Iff.rfl
  | cons r runs ih =>
    intro last starts
    obtain ⟨low, inhabited, rest⟩ := startsFrom_cons starts
    unfold joinRuns
    split
    · rename_i touching
      have joined : last.start ≤ p ∧ p < max last.stop r.stop ↔
          (last.start ≤ p ∧ p < last.stop) ∨ (r.start ≤ p ∧ p < r.stop) := by
        omega
      have merged := @ih ⟨last.start, max last.stop r.stop⟩ (rest.mono low)
      simp only [merged, covers_cons, joined, or_assoc]
    · simp only [covers_cons, ih rest]

theorem Run.le_iff {a b : Run} :
    Run.le a b = true ↔ a.start < b.start ∨ (a.start = b.start ∧ a.stop ≤ b.stop) := by
  simp [Run.le]

theorem mem_insertRun {r s : Run} {runs : List Run} :
    s ∈ insertRun r runs ↔ s = r ∨ s ∈ runs := by
  induction runs with
  | nil => simp [insertRun]
  | cons head rest ih =>
    unfold insertRun
    split
    · exact List.mem_cons
    · rw [List.mem_cons, ih, List.mem_cons]
      exact or_left_comm

theorem StartsFrom.insertRun {i : Nat} {r : Run} {runs : List Run} (starts : StartsFrom i runs)
    (low : i ≤ r.start) (inhabited : r.start < r.stop) : StartsFrom i (insertRun r runs) := by
  obtain ⟨bounds, ordered⟩ := starts
  refine ⟨fun s hs => ?_, ?_⟩
  · rcases mem_insertRun.mp hs with rfl | hs
    · exact ⟨low, inhabited⟩
    · exact bounds s hs
  clear bounds
  induction runs with
  | nil => exact List.pairwise_singleton _ _
  | cons head rest ih =>
    obtain ⟨later, sorted⟩ := List.pairwise_cons.mp ordered
    unfold VtableCloud.insertRun
    split
    · rename_i before
      have first : r.start ≤ head.start := by
        have := Run.le_iff.mp before
        omega
      refine List.pairwise_cons.mpr ⟨fun s hs => ?_, ordered⟩
      rcases List.mem_cons.mp hs with rfl | hs
      · exact first
      · exact Nat.le_trans first (later s hs)
    · rename_i after
      have first : head.start ≤ r.start := by
        have := mt Run.le_iff.mpr after
        omega
      refine List.pairwise_cons.mpr ⟨fun s hs => ?_, ih sorted⟩
      rcases mem_insertRun.mp hs with rfl | hs
      · exact first
      · exact later s hs

theorem mem_sorted {r : Run} {runs : List Run} : r ∈ runs.foldr insertRun [] ↔ r ∈ runs := by
  induction runs with
  | nil => rfl
  | cons s runs ih => rw [List.foldr_cons, mem_insertRun, ih, List.mem_cons]

theorem startsFrom_sorted {runs : List Run} (inhabited : ∀ r ∈ runs, r.start < r.stop) :
    StartsFrom 0 (runs.foldr insertRun []) := by
  induction runs with
  | nil => simp [StartsFrom]
  | cons r runs ih =>
    have rest := ih fun s hs => inhabited s (List.mem_cons_of_mem r hs)
    exact rest.insertRun (Nat.zero_le _) (inhabited r (by simp))

/-- Runs that are not empty are turned into separated ones. -/
theorem separated_coalesce {runs : List Run} (inhabited : ∀ r ∈ runs, r.start < r.stop) :
    Separated 0 (coalesce runs) := by
  have starts := startsFrom_sorted inhabited
  unfold coalesce
  split
  · simp [Separated]
  · rename_i r rest sorted
    rw [sorted] at starts
    obtain ⟨low, inhabitedR, rest⟩ := startsFrom_cons starts
    exact (separated_joinRuns inhabitedR rest).mono low

/-- These hold the same places. -/
theorem covers_coalesce {runs : List Run} (inhabited : ∀ r ∈ runs, r.start < r.stop) {p : Nat} :
    Covers (coalesce runs) p ↔ Covers runs p := by
  have starts := startsFrom_sorted inhabited
  have same : Covers (runs.foldr insertRun []) p ↔ Covers runs p := by
    simp only [Covers, mem_sorted]
  rw [← same]
  unfold coalesce
  split
  · rename_i none
    rw [none]
  · rename_i r rest sorted
    rw [sorted] at starts ⊢
    exact covers_joinRuns (startsFrom_cons starts).2.2

example : coalesce [⟨3, 4⟩, ⟨0, 1⟩, ⟨6, 7⟩, ⟨1, 3⟩] = [⟨0, 4⟩, ⟨6, 7⟩] := by decide

/-! ## Marked places -/

/-- Put one place in front of runs that lie behind it. -/
def consRun (i : Nat) : List Run → List Run
  | [] => [⟨i, i + 1⟩]
  | r :: rest => if r.start = i + 1 then ⟨i, r.stop⟩ :: rest else ⟨i, i + 1⟩ :: r :: rest

/-- The runs of marked places, counted from a place on. -/
def runsFrom (i : Nat) : List Bool → List Run
  | [] => []
  | marked :: rest =>
    if marked then consRun i (runsFrom (i + 1) rest) else runsFrom (i + 1) rest

theorem Separated.consRun {i : Nat} {runs : List Run} (sep : Separated (i + 1) runs) :
    Separated i (consRun i runs) := by
  obtain ⟨bounds, gaps⟩ := sep
  cases runs with
  | nil => simp [Separated, VtableCloud.consRun]
  | cons r rest =>
    obtain ⟨later, gaps⟩ := List.pairwise_cons.mp gaps
    have first := bounds r (by simp)
    have others : ∀ s ∈ rest, i + 1 ≤ s.start ∧ s.start < s.stop := fun s hs =>
      bounds s (List.mem_cons_of_mem r hs)
    rw [VtableCloud.consRun]
    split
    · refine ⟨fun s hs => ?_, List.pairwise_cons.mpr ⟨later, gaps⟩⟩
      rcases List.mem_cons.mp hs with rfl | hs
      · exact ⟨Nat.le_refl i, by show i < r.stop; omega⟩
      · have := others s hs
        omega
    · rename_i apart
      refine ⟨fun s hs => ?_, List.pairwise_cons.mpr ⟨fun s hs => ?_,
        List.pairwise_cons.mpr ⟨later, gaps⟩⟩⟩
      · rcases List.mem_cons.mp hs with rfl | hs
        · exact ⟨Nat.le_refl i, Nat.lt_succ_self i⟩
        · have := bounds s hs
          omega
      · show i + 1 < s.start
        rcases List.mem_cons.mp hs with rfl | hs
        · omega
        · have := later s hs
          omega

theorem places_consRun {i : Nat} {runs : List Run} (sep : Separated (i + 1) runs) :
    (consRun i runs).flatMap Run.places = i :: runs.flatMap Run.places := by
  cases runs with
  | nil => simp [consRun, Run.places, Run.length]
  | cons r rest =>
    have first := sep.1 r (by simp)
    rw [consRun]
    split
    · rename_i touching
      have length : r.stop - i = r.stop - (i + 1) + 1 := by omega
      simp only [List.flatMap_cons, Run.places, Run.length, touching, length, List.range'_succ,
        List.cons_append]
    · simp [Run.places, Run.length]

theorem separated_runsFrom (marks : List Bool) : ∀ i, Separated i (runsFrom i marks) := by
  induction marks with
  | nil => simp [runsFrom, Separated]
  | cons marked rest ih =>
    intro i
    rw [runsFrom]
    split
    · exact (ih (i + 1)).consRun
    · refine ⟨fun r hr => ?_, (ih (i + 1)).2⟩
      have := (ih (i + 1)).1 r hr
      omega

theorem places_runsFrom (marks : List Bool) :
    ∀ i, (runsFrom i marks).flatMap Run.places = ((marks.zipIdx i).filter (·.1)).map (·.2) := by
  induction marks with
  | nil => simp [runsFrom]
  | cons marked rest ih =>
    intro i
    rw [runsFrom, List.zipIdx_cons, List.filter_cons]
    cases marked with
    | true =>
      simp only [if_true, List.map_cons]
      rw [places_consRun (separated_runsFrom rest (i + 1)), ih]
    | false => simpa using ih (i + 1)

theorem covers_iff {runs : List Run} {p : Nat} :
    Covers runs p ↔ p ∈ runs.flatMap Run.places := by
  simp [Covers, Run.mem_places, Run.contains]

/-- The runs of the marked elements of a list hold the places of these elements. -/
theorem covers_runsFrom {α : Type} {l : List α} {mark : α → Bool} {p : Nat} :
    Covers (runsFrom 0 (l.map mark)) p ↔ ∃ a, l[p]? = some a ∧ mark a = true := by
  rw [covers_iff, places_runsFrom]
  simp only [List.mem_map, List.mem_filter, Prod.exists]
  constructor
  · rintro ⟨marked, _, ⟨here, rfl⟩, rfl⟩
    rw [List.mem_zipIdx_iff_getElem?, List.getElem?_map] at here
    exact Option.map_eq_some_iff.mp here
  · rintro ⟨a, here, marked⟩
    refine ⟨true, p, ⟨?_, rfl⟩, rfl⟩
    rw [List.mem_zipIdx_iff_getElem?, List.getElem?_map, here, Option.map_some, marked]

/-- The runs of the marked elements of a list hold these elements, in order. -/
theorem slices_runsFrom {α : Type} (l : List α) (mark : α → Bool) :
    (runsFrom 0 (l.map mark)).flatMap (·.slice l) = l.filter mark := by
  have slices : (fun r : Run => r.slice l) = fun r => r.places.filterMap (l[·]?) :=
    funext fun r => r.slice_eq l
  rw [slices, ← List.filterMap_flatMap, places_runsFrom, List.zipIdx_map, List.filter_map,
    List.map_map, List.filterMap_map]
  have found : ∀ x ∈ (l.zipIdx).filter ((·.1) ∘ Prod.map mark id),
      ((l[·]?) ∘ (·.2) ∘ Prod.map mark id) x = some x.1 := by
    rintro ⟨a, p⟩ hx
    exact List.mem_zipIdx_iff_getElem?.mp (List.mem_filter.mp hx).1
  rw [List.filterMap_congr found, List.filterMap_eq_map']
  conv_rhs => rw [← List.zipIdx_map_fst 0 l, List.filter_map]
  rfl

end VtableCloud
