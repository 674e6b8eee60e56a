import VtableCloud.Proofs.Digraph.Renumbering
import VtableCloud.Proofs.Hierarchy.Query

/-!
# Clouds inside larger hierarchies

Nodes are numbered in the order of all keys, so that a class more gives other numbers to the
nodes of all others.

* `Hierarchy.Embeds`: a cloud stands with other numbers in another hierarchy;
* `Embeds.preorder`, `Embeds.representative`, `Embeds.cloudSize`: there it is asked and answered
  the same.
-/

namespace VtableCloud

/-- A node without its links. -/
def Node.outline (n : Node) : Node := { n with parents := [], children := [] }

namespace Hierarchy

/-- What descends from a node of a hierarchy is found in another hierarchy, linked in the same
way and numbered otherwise. -/
structure Embeds (f : NodeId → NodeId) (h h' : Hierarchy) (root : NodeId) : Prop where
  injective : Function.Injective f
  outline : ∀ a, h.Descends root a → (h'.node (f a)).outline = (h.node a).outline
  children : ∀ a, h.Descends root a → h'.children (f a) = (h.children a).map f

namespace Embeds

variable {f : NodeId → NodeId} {h h' : Hierarchy} {root a : NodeId}

theorem renumbers (e : Embeds f h h' root) :
    Digraph.Renumbers f h.childGraph h'.childGraph root where
  injective := e.injective
  succ a path := by
    rw [succ_childGraph, succ_childGraph]
    exact e.children a path

theorem descends (e : Embeds f h h' root) (path : h.Descends root a) :
    h'.Descends (f root) (f a) :=
  e.renumbers.reaches path

theorem preorder (e : Embeds f h h' root) (path : h.Descends root a) :
    h'.preorder (f a) = (h.preorder a).map f :=
  e.renumbers.preorder_map path

theorem key (e : Embeds f h h' root) (path : h.Descends root a) : h'.key (f a) = h.key a := by
  show (h'.node (f a)).outline.key = (h.node a).outline.key
  rw [e.outline a path]

theorem isDefined (e : Embeds f h h' root) (path : h.Descends root a) :
    h'.isDefined (f a) = h.isDefined a := by
  show (h'.node (f a)).outline.isDefined = (h.node a).outline.isDefined
  rw [e.outline a path]

theorem addressOffset (e : Embeds f h h' root) (path : h.Descends root a) :
    (h'.node (f a)).addressOffset = (h.node a).addressOffset := by
  show (h'.node (f a)).outline.addressOffset = (h.node a).outline.addressOffset
  rw [e.outline a path]

/-- Among nodes of the cloud, the defined ones are the same. -/
theorem filter_isDefined (e : Embeds f h h' root) {ids : List NodeId}
    (inside : ∀ id ∈ ids, h.Descends root id) :
    (ids.map f).filter (h'.isDefined ·) = (ids.filter (h.isDefined ·)).map f := by
  rw [List.filter_map]
  exact congrArg _ (List.filter_congr fun id hid => e.isDefined (inside id hid))

theorem cloudSize (e : Embeds f h h' root) (path : h.Descends root a) :
    h'.cloudSize (f a) = h.cloudSize a := by
  have inside : ∀ id ∈ h.preorder a, h.Descends root id := fun id hid =>
    path.trans (mem_preorder.mp hid)
  rw [Hierarchy.cloudSize, Hierarchy.cloudSize, List.countP_eq_length_filter,
    List.countP_eq_length_filter, e.preorder path, e.filter_isDefined inside, List.length_map]

/-- The node that stands for another is the same, and if there is none, so is the error. -/
theorem representative (e : Embeds f h h' root) (path : h.Descends root a) :
    h'.representative (f a) = (h.representative a).map f := by
  have inside : ∀ id ∈ (h.preorder a).drop 1, h.Descends root id := fun id hid =>
    path.trans (mem_preorder.mp (List.mem_of_mem_drop hid))
  have first : ((h'.preorder (f a)).drop 1).find? (h'.isDefined ·) =
      (((h.preorder a).drop 1).find? (h.isDefined ·)).map f := by
    rw [e.preorder path, ← List.map_drop, ← List.head?_filter, ← List.head?_filter,
      e.filter_isDefined inside, List.head?_map]
  rw [Hierarchy.representative, Hierarchy.representative, e.isDefined path]
  split
  · rfl
  · rw [firstDefinedChild, firstDefinedChild, first, e.key path]
    cases ((h.preorder a).drop 1).find? (h.isDefined ·) <;> rfl

end Embeds

end Hierarchy

end VtableCloud
