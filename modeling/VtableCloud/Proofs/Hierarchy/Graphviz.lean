import VtableCloud.Hierarchy.Graphviz
import VtableCloud.Proofs.Digraph.LevelOrder
import VtableCloud.Proofs.Hierarchy.Consistency
import VtableCloud.Proofs.Hierarchy.Monotone

/-!
# What the Graphviz text of a cloud lists

Between its first and last line the text has a line for each node of the cloud, and behind each of
them a line for each edge to a child.

* `GraphvizLine`: what one of these lines says, `graphvizText`: the text of such lines, and
  `graphviz_eq`: the text of a cloud is of this kind;
* `WellFormed.levelByLevel_levelOrder`: the order in which the nodes come;
* `graphviz_complete`: each node and each edge of the cloud is written once, nothing else is, and
  nearer nodes come first.
-/

namespace VtableCloud

/-- What a line of the text says. -/
inductive GraphvizLine where
  | node (id : NodeId)
  | edge (parent child : NodeId)
  deriving DecidableEq, Repr

def GraphvizLine.text (h : Hierarchy) : GraphvizLine → String
  | node id => h.graphvizNode id
  | edge parent child => h.graphvizEdge parent child

namespace Hierarchy

variable {h : Hierarchy} {root p c : NodeId} {order : List NodeId}

/-- The line of a node, followed by those of its edges. -/
def linesOf (h : Hierarchy) (id : NodeId) : List GraphvizLine :=
  .node id :: (h.children id).map (.edge id)

/-- The text that has given lines between its first and its last. -/
def graphvizText (h : Hierarchy) (className : String) (lines : List GraphvizLine) : String :=
  String.join (s!"digraph \"{className}\" \x7b\n" :: lines.map (·.text h) ++ ["\x7d\n"])

theorem map_text_linesOf (h : Hierarchy) (id : NodeId) :
    (h.linesOf id).map (·.text h) = h.graphvizRow id := by
  rw [linesOf, graphvizRow, List.map_cons, List.map_map]
  rfl

theorem graphviz_eq {className : String} (found : h.rootId className = .ok root) :
    h.graphviz className =
      .ok (h.graphvizText className ((h.levelOrder root).flatMap h.linesOf)) := by
  rw [graphviz, found, graphvizText, List.map_flatMap]
  simp only [map_text_linesOf]
  rfl

@[simp] theorem node_mem_linesOf : .node c ∈ h.linesOf p ↔ c = p := by
  simp [linesOf]

@[simp] theorem edge_mem_linesOf {q : NodeId} :
    .edge q c ∈ h.linesOf p ↔ q = p ∧ c ∈ h.children p := by
  simp only [linesOf, List.mem_cons, List.mem_map, GraphvizLine.edge.injEq, reduceCtorEq, false_or]
  constructor
  · rintro ⟨child, hc, rfl, rfl⟩
    exact ⟨rfl, hc⟩
  · rintro ⟨rfl, hc⟩
    exact ⟨c, hc, rfl, rfl⟩

theorem edge_mem_lines : .edge p c ∈ order.flatMap h.linesOf ↔ p ∈ order ∧ c ∈ h.children p := by
  simp only [List.mem_flatMap, edge_mem_linesOf]
  constructor
  · rintro ⟨q, hq, rfl, hc⟩
    exact ⟨hq, hc⟩
  · rintro ⟨hp, hc⟩
    exact ⟨p, hp, rfl, hc⟩

namespace WellFormed

theorem levelByLevel_levelOrder (wf : h.WellFormed) (lt : root < h.size) :
    h.childGraph.LevelByLevel root (h.levelOrder root) := by
  apply Digraph.levelByLevel_levelOrder
  · intro a c hc
    rw [succ_childGraph] at hc
    rw [size_childGraph]
    exact wf.lt_size_of_child hc
  · intro a
    rw [succ_childGraph]
    exact (wf.sorted_children a).imp Nat.ne_of_lt
  · rw [size_childGraph]
    exact lt

/-- Nodes listed once have no line twice. -/
theorem nodup_lines (wf : h.WellFormed) (once : order.Nodup) :
    (order.flatMap h.linesOf).Nodup := by
  refine List.nodup_flatMap.mpr ⟨fun id _ => ?_, once.imp fun {a b} other => ?_⟩
  · rw [linesOf, List.nodup_cons]
    constructor
    · simp
    · refine List.Nodup.map ?_ ((wf.sorted_children id).imp Nat.ne_of_lt)
      intro a b same
      exact (GraphvizLine.edge.inj same).2
  · rw [Function.onFun, List.disjoint_left]
    intro line first second
    cases line with
    | node id =>
      rw [node_mem_linesOf] at first second
      exact other (first.symm.trans second)
    | edge q c =>
      rw [edge_mem_linesOf] at first second
      exact other (first.1.symm.trans second.1)

end WellFormed

end Hierarchy

/-- In a hierarchy built from records, the text of a root class has a line for every node of its
cloud, each followed by the lines of its edges in key order. The nodes come level by level, and
no line stands for a node or an edge that another one stands for. -/
theorem graphviz_complete {records : List ClassRecord} {h : Hierarchy} {className : String}
    (ingested : Hierarchy.ofRecords records = .ok h) (hr : className ∈ h.roots) :
    ∃ root order, h.rootId className = .ok root ∧
      h.graphviz className = .ok (h.graphvizText className (order.flatMap h.linesOf)) ∧
      h.childGraph.LevelByLevel root order ∧
      (∀ id, id ∈ order ↔ id ∈ h.preorder root) ∧
      (∀ id < h.size, id ∈ order ↔ h.cloudRoot id = root) ∧
      (∀ id, ((h.children id).map h.key).Pairwise (· < ·)) ∧
      (order.flatMap h.linesOf).Nodup ∧
      ∀ p c, .edge p c ∈ order.flatMap h.linesOf ↔ p ∈ h.preorder root ∧ c ∈ h.children p := by
  have wf := Hierarchy.wellFormed_of_ofRecords ingested
  obtain ⟨root, lt, found, -, own⟩ := wf.rootId_of_mem hr
  have levels := wf.levelByLevel_levelOrder lt
  have listed (id : NodeId) : id ∈ h.levelOrder root ↔ id ∈ h.preorder root := by
    rw [levels.mem_iff, Hierarchy.mem_preorder]
    rfl
  refine ⟨root, h.levelOrder root, found, Hierarchy.graphviz_eq found, levels, listed, ?_,
    wf.sorted_child_keys, wf.nodup_lines levels.once, fun p c => ?_⟩
  · intro id inside
    rw [listed, Hierarchy.mem_preorder]
    constructor
    · intro path
      rw [wf.cloudRoot_of_descends path, own]
    · rintro rfl
      exact wf.descends_cloudRoot id
  · rw [Hierarchy.edge_mem_lines, listed]

/-- The two subclasses come before the class below both, which a depth-first order visits in
between. -/
theorem diamond_graphviz :
    Diamond.hierarchy.graphviz "Base" = .ok ("digraph \"Base\" \x7b\n" ++
      "\t \"(Base,0)\";\n\t \"(Base,0)\" -> \"(Left,0)\";\n\t \"(Base,0)\" -> \"(Right,0)\";\n" ++
      "\t \"(Left,0)\";\n\t \"(Left,0)\" -> \"(Tip,0)\";\n" ++
      "\t \"(Right,0)\";\n\t \"(Right,0)\" -> \"(Tip,0)\";\n\t \"(Tip,0)\";\n\x7d\n") ∧
    ∃ order, Diamond.hierarchy.graphviz "Base" = .ok
        (Diamond.hierarchy.graphvizText "Base" (order.flatMap Diamond.hierarchy.linesOf)) ∧
      Diamond.hierarchy.childGraph.LevelByLevel 0 order ∧ (∀ id, id ∈ order ↔ id ∈ [0, 1, 3, 2]) ∧
      (order.flatMap Diamond.hierarchy.linesOf).Nodup := by
  refine ⟨by decide +kernel, ?_⟩
  have hr : "Base" ∈ Diamond.hierarchy.roots := by decide +kernel
  obtain ⟨root, order, found, text, levels, listed, -, -, once, -⟩ :=
    graphviz_complete Diamond.ofRecords_records hr
  have first : Diamond.hierarchy.rootId "Base" = .ok 0 := by decide +kernel
  obtain rfl := Except.ok.inj (found.symm.trans first)
  have preorder : Diamond.hierarchy.preorder 0 = [0, 1, 3, 2] := by decide +kernel
  exact ⟨order, text, levels, preorder ▸ listed, once⟩

end VtableCloud
