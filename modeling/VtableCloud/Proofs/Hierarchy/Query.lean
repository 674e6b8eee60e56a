import VtableCloud.Hierarchy.Query
import VtableCloud.Proofs.Hierarchy.WellFormed

/-!
# Who stands for a node

* `representative_eq_ok`: the first defined node of its preorder represents a node;
* `representative_of_descends`: a node with a defined descendant is represented by one;
* `representative_eq_error`: a node without one is not represented;
* `cloudSize_pos`: defined descendants are counted.
-/

namespace VtableCloud

namespace Hierarchy

variable {h : Hierarchy} {id : NodeId}

/-- A defined node stands for itself. -/
theorem representative_self (defined : h.isDefined id = true) : h.representative id = .ok id :=
  if_pos defined

/-- A node is represented by the first defined node of its preorder, which it heads. -/
theorem representative_eq_ok {r : NodeId} :
    h.representative id = .ok r ↔ (h.preorder id).find? (h.isDefined ·) = some r := by
  obtain ⟨rest, first⟩ := h.childGraph.preorder_eq_cons id
  have first : h.preorder id = id :: rest := first
  unfold representative firstDefinedChild
  rw [first]
  by_cases defined : h.isDefined id = true
  · simp [defined]
  · rw [if_neg defined, List.find?_cons_of_neg defined, List.drop_one, List.tail_cons]
    cases rest.find? (h.isDefined ·) <;> simp

/-- Only a defined descendant represents a node. -/
theorem representative_ok {r : NodeId} (ok : h.representative id = .ok r) :
    h.Descends id r ∧ h.isDefined r = true := by
  have found := representative_eq_ok.mp ok
  exact ⟨mem_preorder.mp (List.mem_of_find?_eq_some found), List.find?_some found⟩

/-- A node that a defined one descends from is represented by such a node. -/
theorem representative_of_descends {d : NodeId} (path : h.Descends id d)
    (defined : h.isDefined d = true) :
    ∃ r, h.representative id = .ok r ∧ h.Descends id r ∧ h.isDefined r = true := by
  cases found : (h.preorder id).find? (h.isDefined ·) with
  | none => exact absurd defined (List.find?_eq_none.mp found d (mem_preorder.mpr path))
  | some r =>
    have represented := representative_eq_ok.mpr found
    exact ⟨r, represented, representative_ok represented⟩

theorem representative_eq_error (none : ∀ d, h.Descends id d → h.isDefined d = false) :
    h.representative id = .error (.noDefinedDescendant (h.key id)) := by
  have found : ((h.preorder id).drop 1).find? (h.isDefined ·) = Option.none := by
    rw [List.find?_eq_none]
    intro d hd
    rw [none d (mem_preorder.mp (List.mem_of_mem_drop hd))]
    simp
  rw [representative, none id (.refl id), firstDefinedChild, found]
  rfl

/-- Either something defined descends from a node, or nothing that descends from it is. -/
theorem defined_below_or_none (h : Hierarchy) (id : NodeId) :
    (∃ d, h.Descends id d ∧ h.isDefined d = true) ∨
      ∀ d, h.Descends id d → h.isDefined d = false := by
  by_cases below : ∃ d, h.Descends id d ∧ h.isDefined d = true
  · exact .inl below
  · exact .inr fun d path => Bool.eq_false_iff.mpr fun defined => below ⟨d, path, defined⟩

theorem cloudSize_pos :
    0 < h.cloudSize id ↔ ∃ d, h.Descends id d ∧ h.isDefined d = true := by
  unfold cloudSize
  rw [List.countP_pos_iff]
  simp only [mem_preorder]

end Hierarchy

end VtableCloud
