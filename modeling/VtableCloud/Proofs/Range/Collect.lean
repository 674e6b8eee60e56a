import VtableCloud.Proofs.Digraph.Release
import VtableCloud.Proofs.Hierarchy.WellFormed
import VtableCloud.Proofs.Range.Run

/-!
# Collecting the runs of descendants

A node's runs are put together from those of its children, which are collected before it, and
each node is visited once however many parents it has.

* `coalesce_runsBelow`: its own place and the runs of its children make up the runs of a node;
* `Collecting`, `collects_collectRuns`: what is collected is right, and nothing is left out
  below it;
* `WellFormed.shallow`: no node is deeper than there are nodes, so the depth suffices;
* `WellFormed.lookup_preorderRuns`, `WellFormed.descendantRuns_eq`: the runs of a node hold the
  places of its descendants.
-/

namespace VtableCloud

namespace Hierarchy

variable {h : Hierarchy} {root id : NodeId} {table : RunTable}

/-- The runs of the places that descendants of a node have in the preorder of a root. -/
def runsBelow (h : Hierarchy) (root id : NodeId) : List Run :=
  runsFrom 0 ((h.preorder root).map ((h.preorder id).contains ·))

theorem covers_runsBelow {p : Nat} :
    Covers (h.runsBelow root id) p ↔ ∃ d, (h.preorder root)[p]? = some d ∧ h.Descends id d := by
  simp [runsBelow, covers_runsFrom, mem_preorder]

theorem nonempty_of_mem_runsBelow {r : Run} (hr : r ∈ h.runsBelow root id) : r.start < r.stop :=
  ((separated_runsFrom _ 0).1 r hr).2

/-- The place of a node is where the preorder lists it. -/
theorem getElem?_preorder_iff (path : h.Descends root id) {p : Nat} :
    (h.preorder root)[p]? = some id ↔ p = (h.preorder root).idxOf id := by
  have lt := List.idxOf_lt_length_iff.mpr (mem_preorder.mpr path)
  have here : (h.preorder root)[(h.preorder root).idxOf id]? = some id := by
    rw [List.getElem?_eq_getElem lt, List.getElem_idxOf lt]
  constructor
  · intro hp
    exact place_unique (Digraph.nodup_preorder _ root) hp here
  · rintro rfl
    exact here

/-- The own place of a node and the runs of its children make up its runs. -/
theorem coalesce_runsBelow (path : h.Descends root id) :
    coalesce (⟨(h.preorder root).idxOf id, (h.preorder root).idxOf id + 1⟩ ::
      (h.children id).flatMap (h.runsBelow root)) = h.runsBelow root id := by
  have inhabited : ∀ r ∈ (⟨(h.preorder root).idxOf id, (h.preorder root).idxOf id + 1⟩ : Run) ::
      (h.children id).flatMap (h.runsBelow root), r.start < r.stop := by
    intro r hr
    rcases List.mem_cons.mp hr with rfl | hr
    · exact Nat.lt_succ_self _
    · obtain ⟨c, -, hr⟩ := List.mem_flatMap.mp hr
      exact nonempty_of_mem_runsBelow hr
  apply (separated_coalesce inhabited).ext (separated_runsFrom _ 0)
  intro p
  have own : (h.preorder root).idxOf id ≤ p ∧ p < (h.preorder root).idxOf id + 1 ↔
      (h.preorder root)[p]? = some id := by
    rw [getElem?_preorder_iff path]
    omega
  have below : Covers ((h.children id).flatMap (h.runsBelow root)) p ↔
      ∃ c ∈ h.children id, Covers (h.runsBelow root c) p := by
    simp only [Covers, List.mem_flatMap]
    constructor
    · rintro ⟨r, ⟨c, hc, hr⟩, within⟩
      exact ⟨c, hc, r, hr, within⟩
    · rintro ⟨c, hc, r, hr, within⟩
      exact ⟨r, ⟨c, hc, hr⟩, within⟩
  rw [covers_coalesce inhabited, covers_cons, own, below]
  constructor
  · rintro (here | ⟨c, hc, covered⟩)
    · exact covers_runsBelow.mpr ⟨id, here, .refl id⟩
    · obtain ⟨d, here, down⟩ := covers_runsBelow.mp covered
      exact covers_runsBelow.mpr ⟨d, here, (descends_of_mem_children hc).trans down⟩
  · intro covered
    obtain ⟨d, here, down⟩ := covers_runsBelow.mp covered
    cases down with
    | refl => exact Or.inl here
    | step edge down =>
      refine Or.inr ⟨_, succ_childGraph h id ▸ edge, ?_⟩
      exact covers_runsBelow.mpr ⟨d, here, down⟩

/-! ## What has been collected -/

/-- The runs of a node have been collected. -/
def Known (table : RunTable) (id : NodeId) : Prop := ∃ runs, table.lookup id = some runs

theorem known_cons {runs : List Run} {d : NodeId} :
    Known ((id, runs) :: table) d ↔ d = id ∨ Known table d := by
  unfold Known
  by_cases same : d = id
  · simp [same]
  · simp [List.lookup_cons, beq_false_of_ne same, same]

/-- The runs that are known are right. Where those of a node are known, those of its children
are known too. -/
structure Collecting (h : Hierarchy) (root : NodeId) (table : RunTable) : Prop where
  right : ∀ id, Known table id → table.runs id = h.runsBelow root id
  closed : ∀ id, Known table id → ∀ c ∈ h.children id, Known table c

theorem collecting_nil : Collecting h root [] where
  right id known := by
    obtain ⟨runs, found⟩ := known
    cases found
  closed id known := by
    obtain ⟨runs, found⟩ := known
    cases found

/-- Once its children are known, a node can be put in front. -/
theorem Collecting.cons (inv : Collecting h root table) (path : h.Descends root id)
    (children : ∀ c ∈ h.children id, Known table c) :
    Collecting h root ((id, coalesce (⟨(h.preorder root).idxOf id,
      (h.preorder root).idxOf id + 1⟩ :: (h.children id).flatMap table.runs)) :: table) where
  right d known := by
    have below : (h.children id).flatMap table.runs = (h.children id).flatMap (h.runsBelow root) :=
      List.flatMap_congr fun c hc => inv.right c (children c hc)
    rw [below, coalesce_runsBelow path]
    by_cases same : d = id
    · simp [RunTable.runs, same]
    · have before := inv.right d ((known_cons.mp known).resolve_left same)
      simpa [RunTable.runs, List.lookup_cons, beq_false_of_ne same] using before
  closed d known c hc := by
    apply known_cons.mpr
    rcases known_cons.mp known with rfl | before
    · exact Or.inr (children c hc)
    · exact Or.inr (inv.closed d before c hc)

/-- What collecting the runs of some nodes has to bring about. -/
structure Collects (h : Hierarchy) (root : NodeId) (ids : List NodeId)
    (before after : RunTable) : Prop where
  inv : Collecting h root after
  kept : ∀ d, Known before d → Known after d
  known : ∀ id ∈ ids, Known after id

/-- Nodes are collected one after the other. -/
theorem collects_foldl {collect : RunTable → NodeId → RunTable} {ids : List NodeId}
    (each : ∀ id ∈ ids, ∀ table, Collecting h root table →
      Collects h root [id] table (collect table id)) :
    ∀ {table : RunTable}, Collecting h root table →
      Collects h root ids table (ids.foldl collect table) := by
  induction ids with
  | nil => exact fun inv => ⟨inv, fun _ known => known, nofun⟩
  | cons id ids ih =>
    intro table inv
    have first := each id (by simp) table inv
    have rest := ih (fun c hc => each c (List.mem_cons_of_mem id hc)) first.inv
    refine ⟨rest.inv, fun d known => rest.kept d (first.kept d known), ?_⟩
    intro c hc
    rcases List.mem_cons.mp hc with rfl | hc
    · exact rest.kept c (first.known c (by simp))
    · exact rest.known c hc

/-- Every way down from a node is shorter than some depth. -/
def Shallow (h : Hierarchy) : Nat → NodeId → Prop
  | 0, _ => False
  | depth + 1, id => ∀ c ∈ h.children id, h.Shallow depth c

/-- The runs of a node are collected if the depth suffices. -/
theorem collects_collectRuns {depth : Nat} :
    ∀ {id : NodeId} {table : RunTable}, h.Shallow depth id → h.Descends root id →
      Collecting h root table →
        Collects h root [id] table (h.collectRuns (h.preorder root) depth table id) := by
  induction depth with
  | zero => exact fun shallow => shallow.elim
  | succ depth ih =>
    intro id table shallow path inv
    unfold collectRuns
    split
    · rename_i found
      have known : Known table id := Option.isSome_iff_exists.mp found
      exact ⟨inv, fun _ known => known, by simpa using known⟩
    · have below : Collects h root (h.children id) table
          ((h.children id).foldl (h.collectRuns (h.preorder root) depth) table) := by
        apply collects_foldl _ inv
        intro c hc table inv
        exact ih (shallow c hc) (path.trans (descends_of_mem_children hc)) inv
      refine ⟨below.inv.cons path below.known, fun d known => ?_, ?_⟩
      · exact known_cons.mpr (Or.inr (below.kept d known))
      · simp [known_cons]

namespace WellFormed

/-- No node is deeper than there are nodes: what is above a node are different nodes. -/
theorem shallow_of_above (wf : h.WellFormed) {depth : Nat} :
    ∀ {above : List NodeId} {id : NodeId}, above.Nodup →
      (∀ a ∈ above, h.childGraph.ReachesStrictly a id) → h.size < above.length + depth →
        h.Shallow depth id := by
  induction depth with
  | zero =>
    intro above id once up enough
    have inside : ∀ a ∈ above, a < h.childGraph.size := by
      intro a ha
      obtain ⟨b, edge, -⟩ := up a ha
      exact Digraph.lt_size_of_mem_succ edge
    have few := Digraph.length_le_size once inside
    rw [size_childGraph] at few
    omega
  | succ depth ih =>
    intro above id once up enough c hc
    have edge : c ∈ h.childGraph.succ id := succ_childGraph h id ▸ hc
    have new : id ∉ above := fun old => wf.acyclic_childGraph id (up id old)
    apply ih (List.nodup_cons.mpr ⟨new, once⟩)
    · intro a ha
      rcases List.mem_cons.mp ha with rfl | ha
      · exact ⟨c, edge, .refl c⟩
      · obtain ⟨b, first, rest⟩ := up a ha
        exact ⟨b, first, rest.trans (.edge edge)⟩
    · rw [List.length_cons]
      omega

theorem shallow (wf : h.WellFormed) (id : NodeId) : h.Shallow (h.size + 1) id :=
  wf.shallow_of_above List.nodup_nil (by simp) (by simp)

theorem collects_preorderRuns (wf : h.WellFormed) (root : NodeId) :
    Collects h root [root] [] (h.preorderRuns (h.preorder root)) := by
  have all := collects_collectRuns (wf.shallow root) (.refl root) (@collecting_nil h root)
  obtain ⟨rest, first⟩ := h.childGraph.preorder_eq_cons root
  unfold preorderRuns
  rw [show h.preorder root = root :: rest from first] at all ⊢
  exact all

/-- No node of a cloud is left out. -/
theorem known_preorderRuns (wf : h.WellFormed) (path : h.Descends root id) :
    Known (h.preorderRuns (h.preorder root)) id := by
  have collected := wf.collects_preorderRuns root
  have down : ∀ a d, h.Descends a d → Known (h.preorderRuns (h.preorder root)) a →
      Known (h.preorderRuns (h.preorder root)) d := by
    intro a d path known
    induction path with
    | refl => exact known
    | step edge _ ih => exact ih (collected.inv.closed _ known _ (succ_childGraph h _ ▸ edge))
  exact down root id path (collected.known root (by simp))

/-- The runs of a node that are collected hold the places of its descendants. -/
theorem descendantRuns_eq (wf : h.WellFormed) (path : h.Descends root id) :
    h.descendantRuns (h.preorder root) id = h.runsBelow root id :=
  (wf.collects_preorderRuns root).inv.right id (wf.known_preorderRuns path)

theorem lookup_preorderRuns (wf : h.WellFormed) (path : h.Descends root id) :
    (h.preorderRuns (h.preorder root)).lookup id = some (h.runsBelow root id) := by
  obtain ⟨runs, found⟩ := wf.known_preorderRuns path
  rw [found, ← wf.descendantRuns_eq path, descendantRuns, RunTable.runs, found]
  rfl

end WellFormed

end Hierarchy

end VtableCloud
