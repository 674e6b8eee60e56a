import VtableCloud.Layout.Coverage
import VtableCloud.Proofs.Layout.Cloud
import VtableCloud.Proofs.Range.Collect

/-!
# The runs of descendants hold the descendants

* `runViolation?_none_iff`: what it is that runs are checked for;
* `perm_below`: the descendants of a member, in the order of the cloud, are its own preorder
  up to order;
* `WellFormed.slices_descendantRuns`: the runs of a member hold its descendants, in the order of
  the cloud;
* `WellFormed.checkDescendantRuns_arrangedCloud`: the check of the runs never fails.
-/

namespace VtableCloud

/-- Nothing is found wrong with runs just if each stops before the next one starts, they hold as
many places as there are descendants, and the place of each descendant is among them. -/
theorem runViolation?_none_iff {h : Hierarchy} {preorder : List NodeId} {id : NodeId}
    {runs : List Run} :
    runViolation? h preorder id runs = none ↔ (runs.IsChain fun a b => a.stop < b.start) ∧
      Run.total runs = (h.preorder id).length ∧
      ∀ d ∈ h.preorder id, ∃ r ∈ runs, r.contains (preorder.idxOf d) = true := by
  have gaps : (runs.zip (runs.drop 1)).any (fun x => decide (x.2.start ≤ x.1.stop)) = false ↔
      runs.IsChain fun a b => a.stop < b.start := by
    rw [isChain_iff_zip, List.any_eq_false]
    simp
  unfold runViolation?
  by_cases chain : runs.IsChain fun a b => a.stop < b.start
  · rw [if_neg (ne_true_of_eq_false (gaps.mpr chain))]
    by_cases total : Run.total runs = (h.preorder id).length
    · simp [chain, total, List.find?_eq_none]
    · simp [total]
  · rw [if_pos (eq_true_of_ne_false (mt gaps.mp chain))]
    simp [chain]

namespace Hierarchy

variable {h : Hierarchy} {root id : NodeId}

/-- The nodes of a cloud that descend from a node, in the order of the cloud. -/
def below (h : Hierarchy) (root id : NodeId) : List NodeId :=
  (h.preorder root).filter ((h.preorder id).contains ·)

theorem mem_below (path : h.Descends root id) {d : NodeId} :
    d ∈ h.below root id ↔ h.Descends id d := by
  simp only [below, List.mem_filter, List.contains_iff_mem, mem_preorder, and_iff_right_iff_imp]
  exact fun rest => path.trans rest

/-- The descendants of a node of a cloud are the same in the order of the cloud and in its own. -/
theorem perm_below (path : h.Descends root id) : (h.below root id).Perm (h.preorder id) := by
  have once : (h.below root id).Nodup := (Digraph.nodup_preorder _ root).filter _
  refine (List.perm_ext_iff_of_nodup once (Digraph.nodup_preorder _ id)).mpr fun d => ?_
  rw [mem_below path, ← mem_preorder]
  rfl

namespace WellFormed

/-- The runs of a node hold its descendants, in the order of the cloud. -/
theorem slices_descendantRuns (wf : h.WellFormed) (path : h.Descends root id) :
    (h.descendantRuns (h.preorder root) id).flatMap (·.slice (h.preorder root)) =
      h.below root id := by
  rw [wf.descendantRuns_eq path]
  exact slices_runsFrom _ _

theorem total_descendantRuns (wf : h.WellFormed) (path : h.Descends root id) :
    Run.total (h.descendantRuns (h.preorder root) id) = (h.preorder id).length := by
  rw [wf.descendantRuns_eq path, Run.total_eq, runsBelow, places_runsFrom, List.length_map,
    ← (perm_below path).length_eq, List.zipIdx_map, List.filter_map, List.length_map, below]
  conv_rhs => rw [← List.zipIdx_map_fst 0 (h.preorder root), List.filter_map, List.length_map]
  rfl

theorem contains_descendantRuns (wf : h.WellFormed) (path : h.Descends root id) {d : NodeId}
    (hd : h.Descends id d) :
    (h.descendantRuns (h.preorder root) id).any
      (·.contains ((h.preorder root).idxOf d)) = true := by
  have here := (getElem?_preorder_iff (path.trans hd)).mpr rfl
  have covered : Covers (h.runsBelow root id) ((h.preorder root).idxOf d) :=
    covers_runsBelow.mpr ⟨d, here, hd⟩
  obtain ⟨r, hr, place⟩ := List.mem_flatMap.mp (covers_iff.mp covered)
  rw [wf.descendantRuns_eq path]
  exact List.any_eq_true.mpr ⟨r, hr, Run.mem_places.mp place⟩

/-- The runs of descendants are found to be disjoint and to hold exactly the descendants. -/
theorem runViolation?_descendantRuns (wf : h.WellFormed) (path : h.Descends root id) :
    runViolation? h (h.preorder root) id (h.descendantRuns (h.preorder root) id) = none := by
  have sep : Separated 0 (h.descendantRuns (h.preorder root) id) := by
    rw [wf.descendantRuns_eq path]
    exact separated_runsFrom _ 0
  apply runViolation?_none_iff.mpr
  refine ⟨sep.2.isChain, wf.total_descendantRuns path, ?_⟩
  intro d hd
  exact List.any_eq_true.mp (wf.contains_descendantRuns path (mem_preorder.mp hd))

theorem checkDescendantRuns_arrangedCloud (wf : h.WellFormed) (options : LayoutOptions)
    (root : NodeId) : (h.arrangedCloud options root).checkDescendantRuns h = .ok () := by
  have none : (h.preorder root).findSome? (fun id =>
      (runViolation? h (h.preorder root) id (h.descendantRuns (h.preorder root) id)).map
        (h.key id, ·)) = none := by
    rw [List.findSome?_eq_none_iff]
    intro id hid
    rw [wf.runViolation?_descendantRuns (mem_preorder.mp hid)]
    rfl
  unfold descendantRuns at none
  rw [CloudLayout.checkDescendantRuns, CloudLayout.checkRuns, preorder_arrangedCloud, none]
  rfl

end WellFormed

end Hierarchy

end VtableCloud
