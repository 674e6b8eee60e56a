import VtableCloud.Proofs.Digraph.Recursion
import VtableCloud.Proofs.Hierarchy.Consistency

/-!
# The preorder of a hierarchy

* `preorder_recursive`: the loop over a stack that computes a preorder comes to its end, and what it
  lists is what the recursion over the children in key order lists, each descendant once;
* `Shortcut.hierarchy`: classes that inherit from a base both directly and through another one.
-/

namespace VtableCloud

/-- In a hierarchy built from records, the loop started at any node has done after at most one round
more than there are edges, whatever it does. It ends with the preorder and nothing else, and so does
the recursion that visits a node unless it has been visited and then its children in key order,
whether it may nest without bound or as deep as there are nodes. The preorder has the node itself
first and each of its descendants once. -/
theorem preorder_recursive {records : List ClassRecord} {h : Hierarchy}
    (ingested : Hierarchy.ofRecords records = .ok h) (start : NodeId) :
    (∀ n s, h.childGraph.Rounds n ([start], []) s → n ≤ h.childGraph.edgeCount + 1) ∧
    (∀ out, (∃ n, h.childGraph.Rounds n ([start], []) ([], out)) ↔ out = h.preorder start) ∧
    (∀ out, h.childGraph.Visits [start] [] out ↔ out = h.preorder start) ∧
    (∀ depth, h.size < depth → h.childGraph.visit depth [] start = h.preorder start) ∧
    (∀ id, h.childGraph.succ id = h.children id ∧
      ((h.children id).map h.key).Pairwise (· < ·)) ∧
    (h.preorder start).head? = some start ∧ (h.preorder start).Nodup ∧
    ∀ d, d ∈ h.preorder start ↔ h.Descends start d := by
  have wf := Hierarchy.wellFormed_of_ofRecords ingested
  refine ⟨fun n s rounds => ?_, fun out => Digraph.rounds_iff, fun out => Digraph.visits_iff,
    fun depth enough => ?_, fun id => ⟨h.succ_childGraph id, wf.sorted_child_keys id⟩, ?_,
    Digraph.nodup_preorder _ _, fun d => Hierarchy.mem_preorder⟩
  · have bound := rounds.le_pendingWork
    rw [Digraph.pendingWork_start] at bound
    omega
  · exact Digraph.visit_eq_preorder (by rwa [Hierarchy.size_childGraph])
  · obtain ⟨rest, eq⟩ := Digraph.preorder_eq_cons h.childGraph start
    rw [Hierarchy.preorder, eq]
    rfl

namespace Shortcut

/-- A class with two subclasses, and a class below both that also inherits from the first one
directly. -/
def records : List ClassRecord := [
  ⟨"Base", [⟨0, .empty, 0, 0, 0, []⟩], [.null], true⟩,
  ⟨"Left", [⟨0, .ofList [.primary "Base"], 0, 0, 0, []⟩], [.null], true⟩,
  ⟨"Right", [⟨0, .ofList [.primary "Base"], 0, 0, 0, []⟩], [.null], true⟩,
  ⟨"Tip", [⟨0, .ofList [.primary "Base", .primary "Left", .primary "Right"], 0, 0, 0, []⟩],
    [.null], true⟩]

def hierarchy : Hierarchy := (Hierarchy.ofRecords records).toOption.getD .empty

end Shortcut

/-- The class at the tip waits twice on the stack when the first subclass has been visited. It is
listed when it is first met and passed over later. -/
theorem shortcut_recursive : ∃ n ≤ 6,
    Shortcut.hierarchy.childGraph.Rounds 2 ([0], []) ([3, 2, 3], [0, 1]) ∧
    Shortcut.hierarchy.childGraph.Rounds n ([0], []) ([], [0, 1, 3, 2]) ∧
    Shortcut.hierarchy.childGraph.Visits [0] [] [0, 1, 3, 2] := by
  have ingested : Hierarchy.ofRecords Shortcut.records = .ok Shortcut.hierarchy := by rfl
  obtain ⟨bounded, loop, recursion, -⟩ := preorder_recursive ingested 0
  have preorder : Shortcut.hierarchy.preorder 0 = [0, 1, 3, 2] := by decide +kernel
  rw [preorder] at loop recursion
  obtain ⟨n, rounds⟩ := (loop _).mpr rfl
  refine ⟨n, bounded n _ rounds, ?_, rounds, (recursion _).mpr rfl⟩
  exact .next (.list (by decide)) (.next (.list (by decide +kernel)) (.none _))

end VtableCloud
