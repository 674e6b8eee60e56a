import Mathlib.Data.List.Perm.Subperm
import VtableCloud.Proofs.Hierarchy.Monotone
import VtableCloud.Proofs.Layout.Coverage

/-!
# Runs that pass their check

The check never asks whether a run holds nothing but descendants, and a run whose ends are
reversed lets those after it start anywhere. It is a matter of counting all the same:

* `exactRuns_iff`: runs are exact just if their places, listed one run after the other, are those
  of the descendants, in some order;
* `perm_of_counted`: enough places that are no more than the descendants are these places;
* `checkRuns_exact`: the runs of a cloud pass the check just if those of each member are exact and
  none reaches the start of the next.
-/

namespace VtableCloud

namespace Hierarchy

variable {h : Hierarchy} {root id : NodeId} {runs : List Run}

/-- The place of each descendant of a node lies in one of its runs and in no more than one, and no
other place lies in any of them. -/
structure ExactRuns (h : Hierarchy) (preorder : List NodeId) (id : NodeId) (runs : List Run) :
    Prop where
  once : ∀ d, h.Descends id d → runs.countP (·.contains (preorder.idxOf d)) = 1
  only : ∀ p, Covers runs p → ∃ d, preorder[p]? = some d ∧ h.Descends id d

/-- The places that the descendants of a node have in the preorder of a root. -/
def placesBelow (h : Hierarchy) (root id : NodeId) : List Nat :=
  (h.preorder id).map ((h.preorder root).idxOf ·)

theorem mem_placesBelow (path : h.Descends root id) {p : Nat} :
    p ∈ h.placesBelow root id ↔ ∃ d, (h.preorder root)[p]? = some d ∧ h.Descends id d := by
  unfold placesBelow
  rw [List.mem_map]
  constructor
  · rintro ⟨d, hd, rfl⟩
    have down := mem_preorder.mp hd
    exact ⟨d, (getElem?_preorder_iff (path.trans down)).mpr rfl, down⟩
  · rintro ⟨d, here, down⟩
    exact ⟨d, mem_preorder.mpr down, ((getElem?_preorder_iff (path.trans down)).mp here).symm⟩

/-- Different descendants have different places. -/
theorem nodup_placesBelow (path : h.Descends root id) : (h.placesBelow root id).Nodup := by
  apply List.Nodup.map_on _ (Digraph.nodup_preorder _ id)
  intro a ha b hb same
  have first := (getElem?_preorder_iff (path.trans (mem_preorder.mp ha))).mpr rfl
  have second := (getElem?_preorder_iff (path.trans (mem_preorder.mp hb))).mpr rfl
  rw [same, second] at first
  exact (Option.some.inj first).symm

theorem exactRuns_iff (path : h.Descends root id) :
    h.ExactRuns (h.preorder root) id runs ↔
      (runs.flatMap Run.places).Perm (h.placesBelow root id) := by
  have once := nodup_placesBelow path
  constructor
  · intro exact
    rw [List.perm_iff_count]
    intro p
    rw [once.count, ← Run.countP_contains]
    by_cases below : p ∈ h.placesBelow root id
    · obtain ⟨d, here, down⟩ := (mem_placesBelow path).mp below
      rw [if_pos below, (getElem?_preorder_iff (path.trans down)).mp here]
      exact exact.once d down
    · rw [if_neg below, Run.countP_contains, List.count_eq_zero, ← covers_iff]
      intro covered
      exact below ((mem_placesBelow path).mpr (exact.only p covered))
  · intro perm
    constructor
    · intro d down
      rw [Run.countP_contains, perm.count_eq, once.count, if_pos]
      exact List.mem_map_of_mem (mem_preorder.mpr down)
    · intro p covered
      apply (mem_placesBelow path).mp
      exact perm.mem_iff.mp (covers_iff.mp covered)

/-- Runs that hold the place of each descendant, and no more places than there are descendants,
hold these places and no others, however they overlap or are reversed. -/
theorem perm_of_counted (path : h.Descends root id)
    (total : Run.total runs = (h.preorder id).length)
    (covered : ∀ d ∈ h.preorder id, ∃ r ∈ runs, r.contains ((h.preorder root).idxOf d) = true) :
    (runs.flatMap Run.places).Perm (h.placesBelow root id) := by
  have among : h.placesBelow root id ⊆ runs.flatMap Run.places := by
    intro p below
    obtain ⟨d, hd, rfl⟩ := List.mem_map.mp below
    obtain ⟨r, hr, inside⟩ := covered d hd
    exact List.mem_flatMap.mpr ⟨r, hr, Run.mem_places.mpr inside⟩
  have few : (runs.flatMap Run.places).length ≤ (h.placesBelow root id).length := by
    rw [← Run.total_eq, total, placesBelow, List.length_map]
  have pigeonholes := List.subperm_of_subset (nodup_placesBelow path) among
  exact (pigeonholes.perm_of_length_le few).symm

/-- Nothing is found wrong with the runs of a node just if they are exact and leave gaps. -/
theorem runViolation?_eq_none_iff (path : h.Descends root id) :
    runViolation? h (h.preorder root) id runs = none ↔
      (runs.IsChain fun a b => a.stop < b.start) ∧ h.ExactRuns (h.preorder root) id runs := by
  rw [runViolation?_none_iff, and_congr_right_iff, exactRuns_iff path]
  intro _
  constructor
  · rintro ⟨total, covered⟩
    exact perm_of_counted path total covered
  · intro perm
    constructor
    · rw [Run.total_eq, perm.length_eq, placesBelow, List.length_map]
    · intro d hd
      have below : (h.preorder root).idxOf d ∈ h.placesBelow root id := List.mem_map_of_mem hd
      obtain ⟨r, hr, place⟩ := List.mem_flatMap.mp (perm.mem_iff.mpr below)
      exact ⟨r, hr, Run.mem_places.mp place⟩

end Hierarchy

/-- Whatever runs are given for the members of a cloud, overlapping, out of order, reversed, past
the end of the preorder or none at all, they pass the check just if each run stops before the next
one starts and those of each member are exact: the place of each descendant lies in one of them and
in no more than one, and no other place lies in any. -/
theorem checkRuns_exact (h : Hierarchy) (root : NodeId) {pads : List Nat}
    (length : pads.length = (h.preorder root).length) (name : String) (options : LayoutOptions)
    (table : Arrangement) (runs : NodeId → List Run) :
    let c := CloudLayout.ofArrangement name options (h.members (h.preorder root) pads) table
    c.checkRuns h runs = .ok () ↔
      ∀ id ∈ c.preorder, ((runs id).IsChain fun a b => a.stop < b.start) ∧
        h.ExactRuns c.preorder id (runs id) := by
  intro c
  have preorder : c.preorder = h.preorder root := Hierarchy.map_id_members length
  unfold CloudLayout.checkRuns
  rw [LayoutError.ofViolation_ok, List.findSome?_eq_none_iff, preorder]
  apply forall₂_congr
  intro id hid
  rw [Option.map_eq_none_iff]
  exact Hierarchy.runViolation?_eq_none_iff (Hierarchy.mem_preorder.mp hid)

namespace Diamond

/-- The runs of the classes of the diamond, those of `Right` from the back to the front with a
reversed run between them. -/
def reversedRuns : NodeId → List Run
  | 0 => [⟨0, 4⟩]
  | 1 => [⟨1, 3⟩]
  | 2 => [⟨3, 4⟩, ⟨9, 1⟩, ⟨2, 3⟩]
  | 3 => [⟨2, 3⟩]
  | _ => []

end Diamond

/-- After a reversed run the runs may start over, and they are exact all the same. -/
theorem diamond_reversed_runs_exact :
    [0, 0, 0, 1].length = (Diamond.hierarchy.preorder 0).length ∧
    let c := CloudLayout.ofArrangement "Base" ⟨.ordered, 8⟩
      (Diamond.hierarchy.members (Diamond.hierarchy.preorder 0) [0, 0, 0, 1]) ⟨[], 1⟩
    c.checkRuns Diamond.hierarchy Diamond.reversedRuns = .ok () ∧
      Diamond.hierarchy.ExactRuns c.preorder 2 [⟨3, 4⟩, ⟨9, 1⟩, ⟨2, 3⟩] := by
  have length : [0, 0, 0, 1].length = (Diamond.hierarchy.preorder 0).length := by decide +kernel
  have exact := checkRuns_exact Diamond.hierarchy 0 length "Base" ⟨.ordered, 8⟩ ⟨[], 1⟩
    Diamond.reversedRuns
  have accepted : (CloudLayout.ofArrangement "Base" ⟨.ordered, 8⟩
      (Diamond.hierarchy.members (Diamond.hierarchy.preorder 0) [0, 0, 0, 1]) ⟨[], 1⟩).checkRuns
      Diamond.hierarchy Diamond.reversedRuns = .ok () := by rfl
  have member : 2 ∈ (CloudLayout.ofArrangement "Base" ⟨.ordered, 8⟩
      (Diamond.hierarchy.members (Diamond.hierarchy.preorder 0) [0, 0, 0, 1])
      ⟨[], 1⟩).preorder := by decide +kernel
  exact ⟨length, accepted, (exact.mp accepted 2 member).2⟩

end VtableCloud
