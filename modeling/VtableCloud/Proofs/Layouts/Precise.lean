import Mathlib.Algebra.GroupWithZero.Nat
import Mathlib.Data.List.Nodup
import VtableCloud.Proofs.Hierarchy.Monotone
import VtableCloud.Proofs.Layouts.Targets
import VtableCloud.Proofs.Range.Tuple

/-!
# Precise ranges

The runs of a node's descendants are split where address points lie more than one alignment
apart. Each group that is left gives one range.

* `points_steppedGroups`, `Built.points_groups`: the groups hold the address points they were
  made of, in order;
* `Built.fits_of_mem_points`: no group reaches past the table by more than an alignment;
* `rangeFor_precise_exact`: the ranges admit the targets of a key and nothing else.
-/

namespace VtableCloud

/-- The address points of a group. -/
def groupPoints (step : Nat) (group : Nat × Nat) : List Nat :=
  (List.range group.2).map (group.1 + · * step)

theorem groupPoints_succ (step first count : Nat) :
    groupPoints step (first, count + 1) = first :: groupPoints step (first + step, count) := by
  have next : (fun i => first + (i + 1) * step) = fun i => first + step + i * step := by
    funext i
    rw [Nat.add_mul]
    omega
  simp [groupPoints, List.range_succ_eq_map, Function.comp_def, next]

/-- Groups are not empty, and hold the address points they were made of. -/
theorem points_steppedGroups (step : Nat) (aps : List Nat) :
    (steppedGroups step aps).flatMap (groupPoints step) = aps ∧
      ∀ g ∈ steppedGroups step aps, 0 < g.2 := by
  induction aps with
  | nil => simp [steppedGroups]
  | cons ap rest ih =>
    obtain ⟨points, inhabited⟩ := ih
    rw [steppedGroups]
    split
    · rename_i eq
      rw [eq, List.flatMap_nil] at points
      simp [groupPoints, ← points]
    · rename_i first count more eq
      rw [eq, List.flatMap_cons] at points
      rw [eq] at inhabited
      split
      · rename_i next
        subst next
        rw [List.flatMap_cons, groupPoints_succ, List.cons_append, points]
        refine ⟨rfl, fun g hg => ?_⟩
        rcases List.mem_cons.mp hg with rfl | hg
        · exact Nat.succ_pos count
        · exact inhabited g (List.mem_cons_of_mem _ hg)
      · rw [List.flatMap_cons, List.flatMap_cons, points]
        refine ⟨by simp [groupPoints], fun g hg => ?_⟩
        rcases List.mem_cons.mp hg with rfl | hg
        · exact Nat.one_pos
        · exact inhabited g hg

theorem sum_counts (step : Nat) (groups : List (Nat × Nat)) :
    (groups.map (·.2)).sum = (groups.flatMap (groupPoints step)).length := by
  simp [List.length_flatMap, groupPoints]

theorem countP_eq_one {α : Type} {p : α → Bool} {xs : List α}
    (apart : xs.Pairwise fun x y => ¬ (p x = true ∧ p y = true)) (some : ∃ x ∈ xs, p x = true) :
    xs.countP p = 1 := by
  induction xs with
  | nil => simp at some
  | cons x xs ih =>
    obtain ⟨first, apart⟩ := List.pairwise_cons.mp apart
    by_cases here : p x = true
    · have none : xs.countP p = 0 :=
        List.countP_eq_zero.mpr fun y hy there => first y hy ⟨here, there⟩
      simp [here, none]
    · obtain ⟨y, hy, there⟩ := some
      rcases List.mem_cons.mp hy with rfl | hy
      · exact absurd there here
      · simp [here, ih apart ⟨y, hy, there⟩]

namespace Layouts

variable {l : Layouts} {id : NodeId}

/-- The groups of address points that the precise ranges of a node are made of. -/
def groups (l : Layouts) (id : NodeId) : List (Nat × Nat) :=
  (l.hierarchy.descendantRuns (l.arrangedCloud id).preorder id).flatMap fun r =>
    steppedGroups (l.arrangedCloud id).alignment
      (((r.slice (l.arrangedCloud id).preorder).filter (l.hierarchy.isDefined ·)).map
        ((l.arrangedCloud id).addressPoint l.hierarchy))

theorem pos_of_mem_groups {g : Nat × Nat} (hg : g ∈ l.groups id) : 0 < g.2 := by
  obtain ⟨r, -, hg⟩ := List.mem_flatMap.mp hg
  exact (points_steppedGroups _ _).2 g hg

/-- The range of a group. -/
def groupRange (l : Layouts) (id : NodeId) (g : Nat × Nat) : RangeTuple :=
  (l.arrangedCloud id).alignedRange g.1 g.2

namespace Built

theorem points_groups (built : l.Built) (id : NodeId) :
    (l.groups id).flatMap (groupPoints (l.arrangedCloud id).alignment) = l.points id := by
  simp only [groups, List.flatMap_assoc, (points_steppedGroups _ _).1]
  rw [← List.map_flatMap, ← List.filter_flatMap, arrangedCloud, Hierarchy.preorder_arrangedCloud,
    built.wf.slices_descendantRuns (built.wf.descends_cloudRoot id)]
  rfl

theorem preciseRanges_eq (built : l.Built) (lt : id < l.hierarchy.size) :
    l.preciseRanges (l.arrangedCloud id) id =
      .ok (((l.groups id).map (l.groupRange id)).mergeSort
        fun a b => decide (b.width ≤ a.width)) := by
  have each : ∀ r ∈ l.hierarchy.descendantRuns (l.arrangedCloud id).preorder id,
      l.runRanges (l.arrangedCloud id) r = .ok ((steppedGroups (l.arrangedCloud id).alignment
        (((r.slice (l.arrangedCloud id).preorder).filter (l.hierarchy.isDefined ·)).map
          ((l.arrangedCloud id).addressPoint l.hierarchy))).map (l.groupRange id)) := by
    intro r hr
    have inside : ∀ d ∈ r.slice (l.arrangedCloud id).preorder,
        l.hierarchy.Descends (l.hierarchy.cloudRoot id) d := by
      intro d hd
      have mem := List.mem_of_mem_drop (List.mem_of_mem_take hd)
      rw [arrangedCloud, Hierarchy.preorder_arrangedCloud] at mem
      exact Hierarchy.mem_preorder.mp mem
    exact bind_ok.mpr ⟨_, built.addressPointSlots lt inside, rfl⟩
  refine bind_ok.mpr ⟨_, mapM_ok_of_forall each, ?_⟩
  rw [groups, List.map_flatMap, List.flatMap]
  rfl

/-- What ends at an address point reaches past the table by no more than an alignment. -/
theorem fits_of_mem_points (built : l.Built) (fits : l.FitsAddressSpace)
    (lt : id < l.hierarchy.size) {first steps : Nat}
    (last : first + steps * (l.arrangedCloud id).alignment ∈ l.points id) :
    first * (l.arrangedCloud id).wordWidth + (steps + 1) *
      ((l.arrangedCloud id).alignment * (l.arrangedCloud id).wordWidth) < wordCount := by
  have within := built.lt_of_mem_points lt last
  have bytes := Nat.mul_le_mul_right (l.arrangedCloud id).wordWidth (Nat.le_of_lt within)
  have room := fits _ (built.hosted id lt)
  rw [Nat.add_mul, Nat.mul_assoc] at bytes
  rw [CloudLayout.FitsAddressSpace] at room
  rw [Nat.add_mul, Nat.one_mul]
  omega

/-- A group holds a point below the node, its last one. -/
theorem exists_of_mem_groups (built : l.Built) {g : Nat × Nat} (hg : g ∈ l.groups id) :
    ∃ steps, g.2 = steps + 1 ∧ g.1 + steps * (l.arrangedCloud id).alignment ∈ l.points id := by
  have pos := pos_of_mem_groups hg
  refine ⟨g.2 - 1, by omega, ?_⟩
  rw [← built.points_groups]
  exact List.mem_flatMap.mpr ⟨g, hg, List.mem_map.mpr ⟨g.2 - 1, List.mem_range.mpr (by omega), rfl⟩⟩

theorem fits_of_mem_groups (built : l.Built) (fits : l.FitsAddressSpace)
    (lt : id < l.hierarchy.size) {g : Nat × Nat} (hg : g ∈ l.groups id) :
    g.1 * (l.arrangedCloud id).wordWidth +
      g.2 * ((l.arrangedCloud id).alignment * (l.arrangedCloud id).wordWidth) < wordCount := by
  obtain ⟨steps, count, last⟩ := built.exists_of_mem_groups hg
  rw [count]
  exact built.fits_of_mem_points fits lt last

/-- The range of a group admits the address points of the group. -/
theorem admits_groupRange (built : l.Built) (fits : l.FitsAddressSpace)
    (lt : id < l.hierarchy.size) {g : Nat × Nat} (hg : g ∈ l.groups id) {a : UInt64} :
    (l.groupRange id g).admits a = true ↔
      ∃ p ∈ groupPoints (l.arrangedCloud id).alignment g, a.toNat = p * l.options.wordWidth := by
  obtain ⟨steps, -, last⟩ := built.exists_of_mem_groups hg
  rw [groupRange, CloudLayout.admits_alignedRange (built.step_pos lt last)
    (built.fits_of_mem_groups fits lt hg)]
  simp [groupPoints]
  rfl

/-- No two groups share an address. -/
theorem apart_groups (built : l.Built) (fits : l.FitsAddressSpace) (lt : id < l.hierarchy.size)
    (a : UInt64) : (l.groups id).Pairwise fun g g' =>
      ¬ ((l.groupRange id g).admits a = true ∧ (l.groupRange id g').admits a = true) := by
  have once : (l.points id).Nodup := (built.sorted_points lt).imp Nat.ne_of_lt
  rw [← built.points_groups, List.nodup_flatMap] at once
  refine once.2.imp_of_mem fun hg hg' disjoint => ?_
  rw [built.admits_groupRange fits lt hg, built.admits_groupRange fits lt hg']
  rintro ⟨⟨p, hp, eq⟩, p', hp', eq'⟩
  obtain rfl : p = p' := Nat.eq_of_mul_eq_mul_right built.positive (eq.symm.trans eq')
  exact disjoint hp hp'

theorem admits_groups_iff (built : l.Built) (fits : l.FitsAddressSpace) (lt : id < l.hierarchy.size)
    {a : UInt64} : (∃ g ∈ l.groups id, (l.groupRange id g).admits a = true) ↔
      ∃ p ∈ l.points id, a.toNat = p * l.options.wordWidth := by
  constructor
  · rintro ⟨g, hg, admitted⟩
    obtain ⟨p, hp, eq⟩ := (built.admits_groupRange fits lt hg).mp admitted
    exact ⟨p, built.points_groups id ▸ List.mem_flatMap.mpr ⟨g, hg, hp⟩, eq⟩
  · rintro ⟨p, hp, eq⟩
    rw [← built.points_groups] at hp
    obtain ⟨g, hg, hp⟩ := List.mem_flatMap.mp hp
    exact ⟨g, hg, (built.admits_groupRange fits lt hg).mpr ⟨p, hp, eq⟩⟩

/-- What the precise ranges of a node admit, how many addresses these are, and how the
ranges are ordered. -/
theorem preciseRanges_spec (built : l.Built) (fits : l.FitsAddressSpace)
    (lt : id < l.hierarchy.size) :
    ∃ set, l.preciseRanges (l.arrangedCloud id) id = .ok set ∧
      (∀ a : UInt64, set.admits a = true ↔
        ∃ p ∈ l.points id, a.toNat = p * l.options.wordWidth) ∧
      (∀ a : UInt64, set.admits a = true → set.countP (·.admits a) = 1) ∧
      (set.map (·.slots.toNat)).sum = l.hierarchy.cloudSize id ∧
      set.Pairwise fun s t => t.width ≤ s.width := by
  refine ⟨_, built.preciseRanges_eq lt, ?_⟩
  have perm := List.mergeSort_perm ((l.groups id).map (l.groupRange id))
    fun a b => decide (b.width ≤ a.width)
  have admits (a : UInt64) : RangeSet.admits (((l.groups id).map (l.groupRange id)).mergeSort
      fun a b => decide (b.width ≤ a.width)) a = true ↔
      ∃ g ∈ l.groups id, (l.groupRange id g).admits a = true := by
    simp [RangeSet.admits, List.any_eq_true, perm.mem_iff]
  refine ⟨fun a => (admits a).trans (built.admits_groups_iff fits lt), fun a some => ?_, ?_, ?_⟩
  · rw [perm.countP_eq, List.countP_map]
    exact countP_eq_one (built.apart_groups fits lt a) ((admits a).mp some)
  · have slots : (l.groups id).map ((·.slots.toNat) ∘ l.groupRange id) =
        (l.groups id).map (·.2) := List.map_congr_left fun g hg => by
      obtain ⟨steps, -, last⟩ := built.exists_of_mem_groups hg
      exact CloudLayout.slots_alignedRange (built.step_pos lt last)
        (built.fits_of_mem_groups fits lt hg) (pos_of_mem_groups hg)
    rw [(perm.map _).sum_nat, List.map_map, slots, sum_counts, built.points_groups,
      built.length_points]
  · refine (List.pairwise_mergeSort ?_ ?_ _).imp of_decide_eq_true
    · intro a b c ab bc
      exact decide_eq_true (UInt64.le_trans (of_decide_eq_true bc) (of_decide_eq_true ab))
    · intro a b
      simpa using UInt64.le_total b.width a.width

end Built

end Layouts

/-- The precise ranges of a key admit the address points of its defined descendants and
nothing else, each through one range. They have as many slots as there are such descendants,
and stand with the widest first. A key that is unknown or has no such descendant has none. -/
theorem rangeFor_precise_exact {records : List ClassRecord} {h : Hierarchy}
    {options : LayoutOptions} {l : Layouts} (ingested : Hierarchy.ofRecords records = .ok h)
    (laid : Layouts.build h options = .ok l) (fits : l.FitsAddressSpace) (key : SubVtableKey) :
    (l.rangeFor key .precise = .ok none ↔
      ∀ id, h.find? key = some id → ∀ d, h.Descends id d → h.isDefined d = false) ∧
    ∀ id, h.find? key = some id → (∃ d, h.Descends id d ∧ h.isDefined d = true) →
      ∃ set, l.rangeFor key .precise = .ok (some set) ∧
        (∀ a : UInt64, set.admits a = true ↔ l.TargetAddress key a) ∧
        (∀ a : UInt64, set.admits a = true → set.countP (·.admits a) = 1) ∧
        (set.map (·.slots.toNat)).sum = h.cloudSize id ∧
        set.Pairwise fun s t => t.width ≤ s.width := by
  obtain ⟨built, rfl, -⟩ := Layouts.built_of_build (Hierarchy.wellFormed_of_ofRecords ingested) laid
  have ranges : ∀ id, l.hierarchy.find? key = some id →
      (∃ d, l.hierarchy.Descends id d ∧ l.hierarchy.isDefined d = true) →
      ∃ set, l.rangeFor key .precise = .ok (some set) ∧
        l.preciseRanges (l.arrangedCloud id) id = .ok set := by
    rintro id found ⟨d, path, defined⟩
    obtain ⟨set, ok, -⟩ := built.preciseRanges_spec fits (built.wf.find?_eq_some.mp found).1
    exact ⟨set, by rw [built.rangeFor_of_descends found path defined, ok]; rfl, ok⟩
  refine ⟨⟨fun none id found d path => ?_, Layouts.rangeFor_eq_none l .precise⟩, ?_⟩
  · rw [Bool.eq_false_iff]
    intro defined
    obtain ⟨set, some, -⟩ := ranges id found ⟨d, path, defined⟩
    rw [none] at some
    cases some
  · intro id found below
    obtain ⟨set, some, ok⟩ := ranges id found below
    obtain ⟨set', ok', admits, rest⟩ :=
      built.preciseRanges_spec fits (built.wf.find?_eq_some.mp found).1
    obtain rfl := Except.ok.inj (ok.symm.trans ok')
    exact ⟨set, some, fun a => (admits a).trans (built.targetAddress_iff fits found).symm, rest⟩

/-- A call through `Left`, which is emitted elsewhere, goes to `Tip`. -/
theorem diamond_precise_exact :
    ∃ l set, Layouts.build Diamond.hierarchy ⟨.ordered, 8⟩ = .ok l ∧
      l.rangeFor (.primary "Left") .precise = .ok (some set) ∧
      ∀ a : UInt64, set.admits a = true ↔ l.TargetAddress (.primary "Left") a := by
  obtain ⟨l, laid⟩ : ∃ l, Layouts.build Diamond.hierarchy ⟨.ordered, 8⟩ = .ok l := ⟨_, rfl⟩
  have fits : l.FitsAddressSpace := by
    obtain rfl := Except.ok.inj laid
    decide +kernel
  obtain ⟨set, some, admits, -⟩ :=
    (rangeFor_precise_exact Diamond.ofRecords_records laid fits (.primary "Left")).2 1 rfl
      ⟨3, Hierarchy.mem_preorder.mp (by decide +kernel), rfl⟩
  exact ⟨l, set, laid, some, admits⟩

end VtableCloud
