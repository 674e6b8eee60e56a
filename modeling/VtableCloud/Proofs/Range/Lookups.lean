import VtableCloud.Proofs.Layout.Coverage

/-!
# Lookups while runs are collected and checked

The runs of a node are put together from its place and the runs of its children, which are looked
up where they have to be by then.

* `WellFormed.collectRuns?_eq`: the children's runs have been collected when they are looked up;
* `WellFormed.preorderRuns?_eq`, `WellFormed.coverageLookup?_eq_none`: the runs of a cloud are
  collected and checked without a lookup that fails;
* `WellFormed.bounds_descendantRuns`: each of them is a slice of the preorder.
-/

namespace VtableCloud

namespace Hierarchy

/-- Collect the runs of a node, after those of its children, looking up what they are made of. -/
def collectRuns? (h : Hierarchy) (preorder : List NodeId) :
    Nat → RunTable → NodeId → Option RunTable
  | 0, _, _ => none
  | depth + 1, table, id =>
    if (table.lookup id).isSome then some table
    else do
      let node ← h.nodes[id]?
      let table ← node.children.foldlM (collectRuns? h preorder depth) table
      let own ← preorder.idxOf? id
      let below ← node.children.mapM fun c => table.lookup c
      return (id, coalesce (⟨own, own + 1⟩ :: below.flatten)) :: table

/-- The runs of each member of a cloud. -/
def preorderRuns? (h : Hierarchy) (preorder : List NodeId) : Option RunTable :=
  match preorder with
  | [] => some []
  | root :: _ => h.collectRuns? preorder (h.size + 1) [] root

end Hierarchy

/-- What is wrong with the runs of one member, whose descendants are looked up in the preorder. -/
def runLookup? (h : Hierarchy) (preorder : List NodeId) (id : NodeId) (runs : List Run) :
    Option (Option Violation) :=
  let descendants := h.preorder id
  let span := Run.total runs
  if (runs.zip (runs.drop 1)).any fun (a, b) => decide (b.start ≤ a.stop) then
    some (some .overlappingRuns)
  else if span ≠ descendants.length then
    some (some (.wrongSpan span descendants.length))
  else
    descendants.findSomeM? fun d => do
      let place ← preorder.idxOf? d
      if runs.any (·.contains place) then
        return none
      else
        let missed ← h.nodes[d]?
        return some (.missedDescendant missed.key)

/-- The first violation among the runs of the members of a cloud. -/
def CloudLayout.coverageLookup? (c : CloudLayout) (h : Hierarchy) (table : RunTable) :
    Option (Option (SubVtableKey × Violation)) :=
  c.preorder.findSomeM? fun id => do
    let node ← h.nodes[id]?
    let violation ← runLookup? h c.preorder id (table.runs id)
    return violation.map (node.key, ·)

namespace Hierarchy

variable {h : Hierarchy} {root id : NodeId} {table : RunTable}

/-- Nodes are collected one after the other without a lookup that fails. -/
theorem foldlM_collect {collect? : RunTable → NodeId → Option RunTable}
    {collect : RunTable → NodeId → RunTable} {ids : List NodeId}
    (each : ∀ id ∈ ids, ∀ table, Collecting h root table →
      collect? table id = some (collect table id) ∧
        Collects h root [id] table (collect table id)) :
    ∀ {table : RunTable}, Collecting h root table →
      ids.foldlM collect? table = some (ids.foldl collect table) := by
  induction ids with
  | nil => exact fun _ => rfl
  | cons id ids ih =>
    intro table inv
    obtain ⟨found, first⟩ := each id (by simp) table inv
    rw [List.foldlM_cons, found]
    exact ih (fun c hc => each c (List.mem_cons_of_mem id hc)) first.inv

/-- The runs of a node are collected without a lookup that fails, if the depth suffices. -/
theorem WellFormed.collectRuns?_eq (wf : h.WellFormed) (lt : root < h.size) {depth : Nat} :
    ∀ {id : NodeId} {table : RunTable}, h.Shallow depth id → h.Descends root id →
      Collecting h root table →
        h.collectRuns? (h.preorder root) depth table id =
          some (h.collectRuns (h.preorder root) depth table id) := by
  induction depth with
  | zero => exact fun shallow => shallow.elim
  | succ depth ih =>
    intro id table shallow path inv
    unfold collectRuns? collectRuns
    split
    · rfl
    · have below : ∀ c ∈ h.children id, ∀ table, Collecting h root table →
          h.collectRuns? (h.preorder root) depth table c =
              some (h.collectRuns (h.preorder root) depth table c) ∧
            Collects h root [c] table (h.collectRuns (h.preorder root) depth table c) := by
        intro c hc table inv
        have down := path.trans (descends_of_mem_children hc)
        exact ⟨ih (shallow c hc) down inv, collects_collectRuns (shallow c hc) down inv⟩
      have children := collects_foldl (fun c hc table inv => (below c hc table inv).2) inv
      have folded := foldlM_collect below inv
      have own := idxOf?_of_mem (mem_preorder.mpr path)
      have looked : ∀ c ∈ h.children id,
          ((h.children id).foldl (h.collectRuns (h.preorder root) depth) table).lookup c =
            some (RunTable.runs
              ((h.children id).foldl (h.collectRuns (h.preorder root) depth) table) c) := by
        intro c hc
        obtain ⟨runs, known⟩ := children.known c hc
        rw [RunTable.runs, known]
        rfl
      rw [getElem?_nodes (wf.lt_size_of_descends path lt)]
      show (do
        let table ← (h.children id).foldlM (h.collectRuns? (h.preorder root) depth) table
        let own ← (h.preorder root).idxOf? id
        let below ← (h.children id).mapM fun c => table.lookup c
        return (id, coalesce (⟨own, own + 1⟩ :: below.flatten)) :: table) = _
      simp only [folded, own, mapM_some_of_forall looked, bind, Option.bind, pure,
        List.flatMap_def]

/-- The runs of a cloud are collected without a lookup that fails. -/
theorem WellFormed.preorderRuns?_eq (wf : h.WellFormed) (lt : root < h.size) :
    h.preorderRuns? (h.preorder root) = some (h.preorderRuns (h.preorder root)) := by
  have all := wf.collectRuns?_eq lt (wf.shallow root) (.refl root) (@collecting_nil h root)
  obtain ⟨rest, first⟩ := h.childGraph.preorder_eq_cons root
  unfold preorderRuns? preorderRuns
  rw [show h.preorder root = root :: rest from first] at all ⊢
  exact all

/-- The descendants of a node of a cloud are found in its preorder, and in the runs of the node. -/
theorem WellFormed.runLookup?_eq_none (wf : h.WellFormed) (path : h.Descends root id) :
    runLookup? h (h.preorder root) id (h.descendantRuns (h.preorder root) id) = some none := by
  have none := wf.runViolation?_descendantRuns path
  simp only [runViolation?] at none
  simp only [runLookup?]
  split at none
  · cases none
  · rename_i separate
    split at none
    · cases none
    · rename_i whole
      rw [if_neg separate, if_neg whole]
      refine findSomeM?_none fun d hd => ?_
      have down := mem_preorder.mp hd
      simp only [idxOf?_of_mem (mem_preorder.mpr (path.trans down)), bind, Option.bind,
        wf.contains_descendantRuns path down, if_true, pure]

/-- The runs of a cloud are checked without a lookup that fails. -/
theorem WellFormed.coverageLookup?_eq_none (wf : h.WellFormed) (lt : root < h.size)
    (options : LayoutOptions) :
    (h.arrangedCloud options root).coverageLookup? h (h.preorderRuns (h.preorder root)) =
      some none := by
  rw [CloudLayout.coverageLookup?, preorder_arrangedCloud]
  refine findSomeM?_none fun id hid => ?_
  have path := mem_preorder.mp hid
  have checked := wf.runLookup?_eq_none path
  unfold descendantRuns at checked
  rw [getElem?_nodes (wf.lt_size_of_descends path lt), checked]
  rfl

/-- The runs of a member of a cloud lie within its preorder. -/
theorem WellFormed.bounds_descendantRuns (wf : h.WellFormed) (path : h.Descends root id) {r : Run}
    (hr : r ∈ h.descendantRuns (h.preorder root) id) :
    r.start < r.stop ∧ r.stop ≤ (h.preorder root).length := by
  rw [wf.descendantRuns_eq path] at hr
  have inhabited := nonempty_of_mem_runsBelow hr
  have covered : Covers (h.runsBelow root id) (r.stop - 1) := ⟨r, hr, by omega, by omega⟩
  obtain ⟨d, last, -⟩ := covers_runsBelow.mp covered
  have := (List.getElem?_eq_some_iff.mp last).1
  omega

end Hierarchy

end VtableCloud
