import VtableCloud.Proofs.Arrangement.Padding
import VtableCloud.Proofs.Hierarchy.Monotone

/-!
# Descendants stand together

In the preorder of a cloud, the descendants of a member that come after it follow it without a gap,
though others may have come before it through another parent. A forward edge therefore leads over
descendants of its parent only.

* `exists_le_iff`: what holds up to each number it holds of, holds up to one number;
* `exists_descendants_iff`: the later descendants of a member are the places up to one of them;
* `exists_forwardEdge`: every member but the first is the child of an edge that leads forward;
* `descendants_contiguous`: all of this for hierarchies built from records.
-/

namespace VtableCloud

/-- What holds between a place and each later place it holds of, and nowhere from a bound on, holds
of the places up to one of them. -/
theorem exists_le_iff {P : Nat → Prop} {i n : Nat} (lt : i < n)
    (closed : ∀ j k, i < j → j ≤ k → k < n → P k → P j) :
    ∃ m, i + m < n ∧ ∀ j, i < j → j < n → (P j ↔ j ≤ i + m) := by
  induction n with
  | zero => omega
  | succ n ih =>
    by_cases first : i = n
    · exact ⟨0, by omega, fun j lo hi => by omega⟩
    by_cases last : P n
    · refine ⟨n - i, by omega, fun j lo hi => ?_⟩
      have all : P j := closed j n lo (by omega) (by omega) last
      exact iff_of_true all (by omega)
    · obtain ⟨m, inside, upTo⟩ := ih (by omega) fun j k lo le hi => closed j k lo le (by omega)
      refine ⟨m, by omega, fun j lo hi => ?_⟩
      by_cases here : j = n
      · subst here
        exact iff_of_false last (by omega)
      · exact upTo j lo (by omega)

namespace Hierarchy

variable {h : Hierarchy} {root : NodeId}

/-- What stands in a preorder up to a later descendant of a member descends from the member. -/
theorem WellFormed.descends_between (wf : h.WellFormed) {i j k : Nat} {p d e : NodeId}
    (hp : (h.preorder root)[i]? = some p) (hd : (h.preorder root)[j]? = some d)
    (he : (h.preorder root)[k]? = some e) (path : h.Descends p e) (lt : i < k) (lo : i ≤ j)
    (hi : j ≤ k) : h.Descends p d :=
  (Digraph.forward_of_reaches wf.acyclic_childGraph hp he lt path j lo hi).reaches hp hd

/-- The descendants of a member that come after it are the places up to one of them. -/
theorem WellFormed.exists_descendants_iff (wf : h.WellFormed) {i : Nat} {p : NodeId}
    (hp : (h.preorder root)[i]? = some p) :
    ∃ m, i + m < (h.preorder root).length ∧ ∀ j d, (h.preorder root)[j]? = some d → i < j →
      (h.Descends p d ↔ j ≤ i + m) := by
  have inside := (List.getElem?_eq_some_iff.mp hp).1
  obtain ⟨m, bound, upTo⟩ := exists_le_iff (P := fun j => ∀ d, (h.preorder root)[j]? = some d →
    h.Descends p d) inside fun j k lo le hi below d hd => by
      have he := List.getElem?_eq_getElem hi
      exact wf.descends_between hp hd he (below _ he) (by omega) (by omega) le
  refine ⟨m, bound, fun j d hd lt => ?_⟩
  have there := (List.getElem?_eq_some_iff.mp hd).1
  rw [← upTo j lt there]
  constructor
  · intro path e he
    obtain rfl := Option.some.inj (hd.symm.trans he)
    exact path
  · exact fun below => below d hd

/-- Every member but the first is the child of an edge that leads forward. -/
theorem WellFormed.exists_forwardEdge (wf : h.WellFormed) {j : Nat} {d : NodeId}
    (hd : (h.preorder root)[j]? = some d) (other : d ≠ root) :
    ∃ i, (i, j) ∈ h.forwardEdges (h.preorder root) := by
  obtain ⟨rest, eq⟩ := Digraph.preorder_eq_cons h.childGraph root
  have first : (h.preorder root)[0]? = some root := by
    rw [preorder, eq]
    rfl
  have later : 0 < j := by
    apply Nat.pos_of_ne_zero
    rintro rfl
    exact other (Option.some.inj (hd.symm.trans first))
  have path : h.Descends root d := mem_preorder.mp (List.mem_of_getElem? hd)
  have forward := Digraph.forward_of_reaches wf.acyclic_childGraph first hd later path j
    (Nat.zero_le j) (Nat.le_refl j)
  obtain ⟨i, a, c, before, ha, hc, edge⟩ := forward.last later
  exact ⟨i, mem_forwardEdges_preorder.mpr ⟨a, c, before, ha, hc, succ_childGraph h a ▸ edge⟩⟩

end Hierarchy

/-- In a preorder of a hierarchy built from records, the descendants of a member that come after it
are the places next to it up to one of them, whatever comes before it. So all that a forward edge
leads over descends from its parent, and an edge leads forward to every member but the root. -/
theorem descendants_contiguous {records : List ClassRecord} {h : Hierarchy}
    (ingested : Hierarchy.ofRecords records = .ok h) (root : NodeId) :
    (∀ i p, (h.preorder root)[i]? = some p → ∃ m, i + m < (h.preorder root).length ∧
      ∀ j d, (h.preorder root)[j]? = some d → i < j → (h.Descends p d ↔ j ≤ i + m)) ∧
    (∀ i j, (i, j) ∈ h.forwardEdges (h.preorder root) → ∀ k p d, i ≤ k → k ≤ j →
      (h.preorder root)[i]? = some p → (h.preorder root)[k]? = some d → h.Descends p d) ∧
    ∀ j d, (h.preorder root)[j]? = some d → d ≠ root →
      ∃ i, (i, j) ∈ h.forwardEdges (h.preorder root) := by
  have wf := Hierarchy.wellFormed_of_ofRecords ingested
  refine ⟨fun i p => wf.exists_descendants_iff, ?_, fun j d => wf.exists_forwardEdge⟩
  intro i j edge k p d lo hi hp hd
  obtain ⟨a, c, later⟩ := Hierarchy.mem_forwardEdges_preorder.mp edge
  exact (later.forward k lo hi).reaches hp hd

/-- The class at the tip comes before one of its two parents, which has no descendant behind it. -/
theorem diamond_contiguous :
    Hierarchy.ofRecords Diamond.records = .ok Diamond.hierarchy ∧
    Diamond.hierarchy.preorder 0 = [0, 1, 3, 2] ∧
    Diamond.hierarchy.Descends 2 3 ∧
    ∀ i p, [0, 1, 3, 2][i]? = some p → ∃ m, i + m < 4 ∧
      ∀ j d, [0, 1, 3, 2][j]? = some d → i < j → (Diamond.hierarchy.Descends p d ↔ j ≤ i + m) := by
  have preorder : Diamond.hierarchy.preorder 0 = [0, 1, 3, 2] := by decide +kernel
  have contiguous := (descendants_contiguous Diamond.ofRecords_records 0).1
  rw [preorder] at contiguous
  have below : Diamond.hierarchy.Descends 2 3 := Hierarchy.mem_preorder.mp (by decide +kernel)
  exact ⟨Diamond.ofRecords_records, preorder, below, contiguous⟩

end VtableCloud
