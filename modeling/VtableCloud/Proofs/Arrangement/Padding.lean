import VtableCloud.Layouts.Basic
import VtableCloud.Proofs.Hierarchy.WellFormed

/-!
# Padded members cover their ancestors

Padding is pushed down the forward edges of a preorder once. Since edges come grouped by
source, the padding of a source is final when it is pushed on, and in the end every forward
edge leads to a member with at least as many slots before its address point. No other padding
with this property has less at any place.

* `mem_forwardEdges`, `sorted_forwardEdges`: what the edges are and how they are ordered;
* `padEdges_spec`: one pass over edges in this order settles all of them;
* `padEdge_le`, `prePadding_le`: an edge that another padding settles asks for no more than that;
* `LaterChild`: an edge whose child comes later in a cloud, as an edge between nodes;
* `Member.FitsIn`: one member has no slot where another has none;
* `before_le_of_forward`, `fitsIn_of_forward`: members that are reached along forward edges;
* `fitsIn_of_descends`: a member fits in all that stand between it and a later descendant;
* `prePadding_least`: the padding of a preorder is the least with which later children cover their
  parents.
-/

namespace VtableCloud

namespace Hierarchy

variable {h : Hierarchy} {preorder : List NodeId}

theorem mem_forwardEdgesFrom {i j k : Nat} {id : NodeId} :
    (i, j) ∈ h.forwardEdgesFrom preorder k id ↔
      i = k ∧ i < j ∧ ∃ c ∈ h.children id, preorder.idxOf? c = some j := by
  simp only [forwardEdgesFrom, List.mem_filterMap]
  constructor
  · rintro ⟨c, hc, found⟩
    split at found
    · rename_i place eq
      split at found
      · rename_i lt
        obtain ⟨rfl, rfl⟩ := Prod.mk.inj (Option.some.inj found)
        exact ⟨rfl, lt, c, hc, eq⟩
      · cases found
    · cases found
  · rintro ⟨rfl, lt, c, hc, eq⟩
    exact ⟨c, hc, by simp [eq, lt]⟩

theorem mem_forwardEdges {i j : Nat} :
    (i, j) ∈ h.forwardEdges preorder ↔
      i < j ∧ ∃ a, preorder[i]? = some a ∧ ∃ c ∈ h.children a, preorder.idxOf? c = some j := by
  simp only [forwardEdges, List.mem_flatMap, List.mem_zipIdx_iff_getElem?, Prod.exists,
    mem_forwardEdgesFrom]
  constructor
  · rintro ⟨a, k, ha, rfl, lt, child⟩
    exact ⟨lt, a, ha, child⟩
  · rintro ⟨lt, a, ha, child⟩
    exact ⟨a, i, ha, rfl, lt, child⟩

theorem sorted_forwardEdges :
    (h.forwardEdges preorder).Pairwise fun e f => e.1 ≤ f.1 := by
  rw [forwardEdges, List.pairwise_flatMap]
  constructor
  · rintro ⟨id, k⟩ -
    rw [List.pairwise_iff_forall_sublist]
    rintro ⟨i, j⟩ ⟨i', j'⟩ sub
    have first := (mem_forwardEdgesFrom.mp (sub.subset (by simp) : (i, j) ∈ _)).1
    have second := (mem_forwardEdgesFrom.mp (sub.subset (by simp) : (i', j') ∈ _)).1
    exact Nat.le_of_eq (first.trans second.symm)
  · rw [List.pairwise_iff_getElem]
    intro m n hm hn lt x hx y hy
    obtain ⟨i, j⟩ := x
    obtain ⟨i', j'⟩ := y
    simp only [List.getElem_zipIdx] at hx hy
    have first := (mem_forwardEdgesFrom.mp hx).1
    have second := (mem_forwardEdgesFrom.mp hy).1
    show i ≤ i'
    omega

/-- The number of slots before the address point of the node at a place. -/
def depthAt (h : Hierarchy) (preorder : List NodeId) (k : Nat) : Nat :=
  (h.node (preorder.getD k 0)).addressOffset

/-- An edge changes the padding of its child only, and makes it no more than its parent needs. -/
theorem getD_padEdge (h : Hierarchy) (preorder : List NodeId) (pads : List Nat) (i j k : Nat) :
    (h.padEdge preorder pads (i, j)).getD k 0 = if k = j ∧ j < pads.length then
      max (pads.getD j 0) (h.depthAt preorder i + pads.getD i 0 - h.depthAt preorder j)
      else pads.getD k 0 :=
  getD_set pads j k _ 0

@[simp] theorem length_padEdge (h : Hierarchy) (preorder : List NodeId) (pads : List Nat)
    (edge : Nat × Nat) : (h.padEdge preorder pads edge).length = pads.length := by
  simp [padEdge]

/-- Padding pushed down edges that are sorted by source: no padding shrinks, that of places
up to the first source stays, and in the end every edge is settled. -/
theorem padEdges_spec : ∀ {edges : List (Nat × Nat)} {pads : List Nat},
    edges.Pairwise (fun e f => e.1 ≤ f.1) →
    (∀ e ∈ edges, e.1 < e.2 ∧ e.2 < pads.length) →
    let out := edges.foldl (h.padEdge preorder) pads
    out.length = pads.length ∧ (∀ k, pads.getD k 0 ≤ out.getD k 0) ∧
      (∀ k, (∀ e ∈ edges, k ≤ e.1) → out.getD k 0 = pads.getD k 0) ∧
      ∀ e ∈ edges, h.depthAt preorder e.1 + out.getD e.1 0 ≤
        h.depthAt preorder e.2 + out.getD e.2 0 := by
  intro edges
  induction edges with
  | nil => simp
  | cons edge edges ih =>
    intro pads sorted bounds
    obtain ⟨i, j⟩ := edge
    obtain ⟨first, sorted⟩ := List.pairwise_cons.mp sorted
    obtain ⟨lt, inside⟩ := bounds (i, j) (by simp)
    simp only [] at lt inside first
    have value := h.getD_padEdge preorder pads i j
    obtain ⟨lengthOut, grow, stay, settled⟩ := ih sorted fun e he => by
      rw [length_padEdge]
      exact bounds e (List.mem_cons_of_mem _ he)
    refine ⟨lengthOut.trans (h.length_padEdge _ _ _), fun k => ?_, fun k before => ?_,
      fun e he => ?_⟩
    · rw [List.foldl_cons]
      refine Nat.le_trans ?_ (grow k)
      rw [value]
      split
      · rename_i eq
        exact eq.1 ▸ Nat.le_max_left _ _
      · exact Nat.le_refl _
    · have here : k ≤ i := before (i, j) (by simp)
      rw [List.foldl_cons, stay k fun e he => before e (List.mem_cons_of_mem _ he), value,
        if_neg (by omega)]
    · rcases List.mem_cons.mp he with rfl | he
      · have source := stay i first
        have target := grow j
        rw [value, if_neg (by omega)] at source
        rw [value, if_pos ⟨rfl, inside⟩] at target
        simp only [List.foldl_cons, source]
        omega
      · exact settled e he

theorem forwardEdges_lt {e : Nat × Nat} (he : e ∈ h.forwardEdges preorder) :
    e.1 < e.2 ∧ e.2 < preorder.length := by
  obtain ⟨lt, -, -, c, -, found⟩ := mem_forwardEdges.mp he
  exact ⟨lt, (List.idxOf?_eq_some_iff.mp found).1⟩

/-- There is a padding for each place, none for the first, and along a forward edge the padded
child has at least as many slots before its address point. -/
theorem prePadding_spec (h : Hierarchy) (preorder : List NodeId) :
    (h.prePadding preorder).length = preorder.length ∧
      (h.prePadding preorder).getD 0 0 = 0 ∧
      ∀ e ∈ h.forwardEdges preorder,
        h.depthAt preorder e.1 + (h.prePadding preorder).getD e.1 0 ≤
          h.depthAt preorder e.2 + (h.prePadding preorder).getD e.2 0 := by
  have bounds : ∀ e ∈ h.forwardEdges preorder,
      e.1 < e.2 ∧ e.2 < (List.replicate preorder.length 0).length := by
    intro e he
    simpa using forwardEdges_lt he
  obtain ⟨length, -, first, settled⟩ := padEdges_spec sorted_forwardEdges bounds
  refine ⟨length.trans List.length_replicate, ?_, settled⟩
  rw [prePadding, first 0 fun _ _ => Nat.zero_le _]
  simp

/-- Pushing padding down an edge does not exceed any padding that settles the edge. -/
theorem padEdge_le {other : Nat → Nat} {pads : List Nat} {edge : Nat × Nat}
    (settled : h.depthAt preorder edge.1 + other edge.1 ≤ h.depthAt preorder edge.2 + other edge.2)
    (within : ∀ k, pads.getD k 0 ≤ other k) (k : Nat) :
    (h.padEdge preorder pads edge).getD k 0 ≤ other k := by
  rw [getD_padEdge]
  split
  · rename_i target
    rw [target.1]
    have source := within edge.1
    have own := within edge.2
    omega
  · exact within k

/-- So the padding of all places exceeds no padding that settles all forward edges. -/
theorem prePadding_le {other : Nat → Nat}
    (settled : ∀ e ∈ h.forwardEdges preorder,
      h.depthAt preorder e.1 + other e.1 ≤ h.depthAt preorder e.2 + other e.2) (k : Nat) :
    (h.prePadding preorder).getD k 0 ≤ other k := by
  have pushed : ∀ {edges : List (Nat × Nat)} {pads : List Nat},
      edges ⊆ h.forwardEdges preorder → (∀ k, pads.getD k 0 ≤ other k) →
      ∀ k, (edges.foldl (h.padEdge preorder) pads).getD k 0 ≤ other k := by
    intro edges
    induction edges with
    | nil => exact fun _ within => within
    | cons edge edges ih =>
      intro pads sub within
      obtain ⟨member, sub⟩ := List.cons_subset.mp sub
      exact ih sub (padEdge_le (settled edge member) within)
  exact pushed (List.Subset.refl _) (by simp) k

/-! ## Members in the order of a preorder -/

variable {pads : List Nat}

theorem getElem?_members {i : Nat} {m : Member} (hm : (h.members preorder pads)[i]? = some m) :
    preorder[i]? = some m.id ∧ pads[i]? = some m.pad ∧ m.node = h.node m.id := by
  simp only [members, List.getElem?_map, Option.map_eq_some_iff, List.getElem?_zip_eq_some,
    Prod.exists] at hm
  obtain ⟨id, pad, ⟨hid, hpad⟩, rfl⟩ := hm
  exact ⟨hid, hpad, rfl⟩

theorem key_of_getElem? {i : Nat} {m : Member} (hm : (h.members preorder pads)[i]? = some m) :
    h.key m.id = m.key := by
  rw [Hierarchy.key, ← (getElem?_members hm).2.2, Member.key]

theorem isDefined_of_getElem? {i : Nat} {m : Member}
    (hm : (h.members preorder pads)[i]? = some m) : m.node.isDefined = h.isDefined m.id := by
  rw [isDefined, (getElem?_members hm).2.2]

theorem map_id_members (length : pads.length = preorder.length) :
    (h.members preorder pads).map (·.id) = preorder := by
  rw [members, List.map_map]
  exact List.map_fst_zip (Nat.le_of_eq length.symm)

end Hierarchy

/-- A member has no slot at a distance from its address point at which the other has none. -/
def Member.FitsIn (m other : Member) : Prop := m.before ≤ other.before ∧ m.after ≤ other.after

namespace Hierarchy

variable {h : Hierarchy} {root : NodeId}

/-- The number of slots of a node after its address point. -/
def after (h : Hierarchy) (id : NodeId) : Nat := (h.node id).last - (h.node id).addressPoint

/-- In the cloud of a root, a node and a later child of it stand at two places. -/
structure LaterChild (h : Hierarchy) (root : NodeId) (i j : Nat) (parent child : NodeId) :
    Prop where
  before : i < j
  atParent : (h.preorder root)[i]? = some parent
  atChild : (h.preorder root)[j]? = some child
  edge : child ∈ h.children parent

theorem mem_forwardEdges_preorder {i j : Nat} : (i, j) ∈ h.forwardEdges (h.preorder root) ↔
    ∃ a c, h.LaterChild root i j a c := by
  rw [mem_forwardEdges]
  constructor
  · rintro ⟨lt, a, ha, c, edge, found⟩
    obtain ⟨inside, eq, -⟩ := List.idxOf?_eq_some_iff.mp found
    exact ⟨a, c, lt, ha, List.getElem?_eq_some_iff.mpr ⟨inside, eq⟩, edge⟩
  · rintro ⟨a, c, lt, ha, hc, edge⟩
    exact ⟨lt, a, ha, c, edge, idxOf?_of_place (Digraph.nodup_preorder _ _) hc⟩

theorem map_id_paddedMembers (h : Hierarchy) (root : NodeId) :
    (h.paddedMembers root).map (·.id) = h.preorder root :=
  map_id_members (prePadding_spec h _).1

theorem before_of_getElem? {preorder : List NodeId} {pads : List Nat} {i : Nat} {m : Member}
    (hm : (h.members preorder pads)[i]? = some m) :
    m.before = h.depthAt preorder i + pads.getD i 0 := by
  obtain ⟨hid, hpad, node⟩ := getElem?_members hm
  simp [Member.before, depthAt, node, hid, hpad]

theorem after_of_getElem? {preorder : List NodeId} {pads : List Nat} {i : Nat} {m : Member}
    (hm : (h.members preorder pads)[i]? = some m) : m.after = h.after m.id := by
  rw [Member.after, (getElem?_members hm).2.2, after]

/-- What stands between a node and a later child of it hangs on the node. -/
theorem LaterChild.forward {i j : Nat} {a c : NodeId} (later : h.LaterChild root i j a c) (k : Nat)
    (lo : i ≤ k) (hi : k ≤ j) : h.childGraph.Forward (h.preorder root) i k :=
  (Digraph.depthFirst_preorder _ _).forward_of_edge (Digraph.nodup_preorder _ _) later.before
    later.atParent later.atChild (succ_childGraph h a ▸ later.edge) k lo hi

/-- Along a path of forward edges the slots before the address points do not get fewer. -/
theorem before_le_of_forward {i j : Nat}
    (path : h.childGraph.Forward (h.preorder root) i j) {m m' : Member}
    (hm : (h.paddedMembers root)[i]? = some m) (hm' : (h.paddedMembers root)[j]? = some m') :
    m.before ≤ m'.before := by
  rw [before_of_getElem? hm, before_of_getElem? hm']
  apply path.mono (f := fun k => h.depthAt (h.preorder root) k +
    (h.prePadding (h.preorder root)).getD k 0)
  intro i j a c lt ha hc edge
  apply (prePadding_spec h (h.preorder root)).2.2 (i, j)
  exact mem_forwardEdges_preorder.mpr ⟨a, c, lt, ha, hc, succ_childGraph h a ▸ edge⟩

/-- What stands between a node and a later child of it has no fewer slots before its address
point than the node. -/
theorem LaterChild.before_le {i j k : Nat} {a c : NodeId} (later : h.LaterChild root i j a c)
    {m x : Member} (hm : (h.paddedMembers root)[i]? = some m)
    (hx : (h.paddedMembers root)[k]? = some x) (lo : i ≤ k) (hi : k ≤ j) : m.before ≤ x.before :=
  before_le_of_forward (later.forward k lo hi) hm hx

/-- If later children keep the slots after the address points of their parents, a member fits
in what is reached from it along forward edges. -/
theorem fitsIn_of_forward
    (keeps : ∀ i j a c, h.LaterChild root i j a c → h.after a ≤ h.after c) {i j : Nat}
    (path : h.childGraph.Forward (h.preorder root) i j) {m m' : Member}
    (hm : (h.paddedMembers root)[i]? = some m) (hm' : (h.paddedMembers root)[j]? = some m') :
    m.FitsIn m' := by
  refine ⟨before_le_of_forward path hm hm', ?_⟩
  have along := path.mono (f := fun k => h.after ((h.preorder root).getD k 0))
    fun i j a c lt ha hc edge => by
      have kept := keeps i j a c ⟨lt, ha, hc, succ_childGraph h a ▸ edge⟩
      simpa [ha, hc] using kept
  rw [after_of_getElem? hm, after_of_getElem? hm']
  simpa [(getElem?_members hm).1, (getElem?_members hm').1] using along

/-- In the cloud of a monotone hierarchy, a member fits in all that stand between it and a
later descendant. -/
theorem fitsIn_of_descends (wf : h.WellFormed) (mono : h.Monotone) {i j k : Nat}
    {m m' d : Member} (hm : (h.paddedMembers root)[i]? = some m)
    (hd : (h.paddedMembers root)[k]? = some d) (lt : i < k) (path : h.Descends m.id d.id)
    (hm' : (h.paddedMembers root)[j]? = some m') (lo : i ≤ j) (hi : j ≤ k) : m.FitsIn m' :=
  fitsIn_of_forward (fun _ _ a c later => mono a c later.edge)
    (Digraph.forward_of_reaches wf.acyclic_childGraph (getElem?_members hm).1
      (getElem?_members hd).1 lt path j lo hi) hm hm'

theorem depthAt_of_place {preorder : List NodeId} {i : Nat} {a : NodeId}
    (ha : preorder[i]? = some a) : h.depthAt preorder i = (h.node a).addressOffset := by
  simp [depthAt, ha]

/-- Padding settles the forward edges of a preorder if later children cover their parents. -/
theorem settled_iff {other : Nat → Nat} :
    (∀ e ∈ h.forwardEdges (h.preorder root), h.depthAt (h.preorder root) e.1 + other e.1 ≤
      h.depthAt (h.preorder root) e.2 + other e.2) ↔
    ∀ i j a c, h.LaterChild root i j a c →
      (h.node a).addressOffset + other i ≤ (h.node c).addressOffset + other j := by
  constructor
  · intro settled i j a c later
    have edge := settled (i, j) (mem_forwardEdges_preorder.mpr ⟨a, c, later⟩)
    rwa [depthAt_of_place later.atParent, depthAt_of_place later.atChild] at edge
  · rintro covers ⟨i, j⟩ edge
    obtain ⟨a, c, later⟩ := mem_forwardEdges_preorder.mp edge
    rw [depthAt_of_place later.atParent, depthAt_of_place later.atChild]
    exact covers i j a c later

/-- No padding makes a place deeper than the deepest one is without. -/
theorem depth_add_prePadding_le {deepest : Nat}
    (shallow : ∀ a ∈ h.preorder root, (h.node a).addressOffset ≤ deepest) {i : Nat} {a : NodeId}
    (ha : (h.preorder root)[i]? = some a) :
    (h.node a).addressOffset + (h.prePadding (h.preorder root)).getD i 0 ≤ deepest := by
  -- Padding every place to the same depth covers all parents.
  have level : ∀ e ∈ h.forwardEdges (h.preorder root),
      h.depthAt (h.preorder root) e.1 + (deepest - h.depthAt (h.preorder root) e.1) ≤
        h.depthAt (h.preorder root) e.2 + (deepest - h.depthAt (h.preorder root) e.2) := by
    intro e edge
    obtain ⟨a, c, later⟩ := mem_forwardEdges_preorder.mp edge
    have source := shallow a (List.mem_of_getElem? later.atParent)
    rw [depthAt_of_place later.atParent]
    omega
  have within := @prePadding_le h _ (fun k => deepest - h.depthAt (h.preorder root) k) level i
  have own := shallow a (List.mem_of_getElem? ha)
  simp only [depthAt_of_place ha] at within
  omega

/-- Padding for the places of a preorder with which every later child covers its parent. -/
structure CoversParents (h : Hierarchy) (root : NodeId) (pads : List Nat) : Prop where
  length : pads.length = (h.preorder root).length
  covers : ∀ i j a c, h.LaterChild root i j a c →
    (h.node a).addressOffset + pads.getD i 0 ≤ (h.node c).addressOffset + pads.getD j 0

end Hierarchy

/-- The padding of a preorder covers all parents from all later children with as few slots as
possible at every place, and with none for the root. No member gets deeper by it than the deepest
of them is without. -/
theorem prePadding_least (h : Hierarchy) (root : NodeId) :
    h.CoversParents root (h.prePadding (h.preorder root)) ∧
    (∀ pads, h.CoversParents root pads → ∀ i,
      (h.prePadding (h.preorder root)).getD i 0 ≤ pads.getD i 0) ∧
    (h.prePadding (h.preorder root))[0]? = some 0 ∧
    ∀ deepest, (∀ a ∈ h.preorder root, (h.node a).addressOffset ≤ deepest) →
      ∀ i a, (h.preorder root)[i]? = some a →
        (h.node a).addressOffset + (h.prePadding (h.preorder root)).getD i 0 ≤ deepest := by
  obtain ⟨length, first, settled⟩ := h.prePadding_spec (h.preorder root)
  refine ⟨⟨length, Hierarchy.settled_iff.mp settled⟩, fun pads covers => ?_, ?_, ?_⟩
  · exact Hierarchy.prePadding_le (Hierarchy.settled_iff.mpr covers.covers)
  · obtain ⟨rest, eq⟩ := Digraph.preorder_eq_cons h.childGraph root
    have inside : 0 < (h.prePadding (h.preorder root)).length := by
      rw [length, Hierarchy.preorder, eq]
      exact Nat.succ_pos _
    rw [List.getElem?_eq_getElem inside, ← List.getD_eq_getElem _ 0 inside, first]
  · exact fun deepest shallow i a ha => Hierarchy.depth_add_prePadding_le shallow ha

end VtableCloud
