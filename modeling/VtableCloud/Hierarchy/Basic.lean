import VtableCloud.Digraph.Preorder
import VtableCloud.Hierarchy.Error

/-!
# Class hierarchies

Every sub-vtable of every class is a node. Nodes are numbered in key order and
linked to their parents and children. A node without parents is the root of a
cloud, to which all its descendants belong.

* `Hierarchy.node`, `parents`, `children`: the graph;
* `Hierarchy.preorder`: the descendants of a node, itself first;
* `Hierarchy.Descends`: inheritance through any number of classes.
-/

namespace VtableCloud

/-- The number of a node, its place in key order. -/
abbrev NodeId := Nat

/-- One sub-vtable, with its parents and children in key order. -/
structure Node where
  key : SubVtableKey
  start : Nat
  last : Nat
  addressPoint : Nat
  isDefined : Bool
  parents : List NodeId
  children : List NodeId
  deriving DecidableEq, Repr, Inhabited

namespace Node

def width (n : Node) : Nat := n.last - n.start + 1

/-- The number of slots in front of the address point. -/
def addressOffset (n : Node) : Nat := n.addressPoint - n.start

end Node

/-- The records in name order, the nodes in key order, and for each node the root of
its cloud. -/
structure Hierarchy where
  records : List ClassRecord
  nodes : List Node
  cloudRoots : List NodeId
  deriving DecidableEq, Repr

namespace Hierarchy

def empty : Hierarchy := ⟨[], [], []⟩

instance : Inhabited Hierarchy := ⟨empty⟩

def size (h : Hierarchy) : Nat := h.nodes.length

/-- The node of a number. A number beyond the nodes stands for an undefined node
without parents and children. -/
def node (h : Hierarchy) (id : NodeId) : Node := h.nodes.getD id default

def key (h : Hierarchy) (id : NodeId) : SubVtableKey := (h.node id).key

def parents (h : Hierarchy) (id : NodeId) : List NodeId := (h.node id).parents

def children (h : Hierarchy) (id : NodeId) : List NodeId := (h.node id).children

def isDefined (h : Hierarchy) (id : NodeId) : Bool := (h.node id).isDefined

/-- The edges from parents to children. -/
def childGraph (h : Hierarchy) : Digraph := ⟨h.nodes.map (·.children)⟩

/-- The edges from children to parents. -/
def parentGraph (h : Hierarchy) : Digraph := ⟨h.nodes.map (·.parents)⟩

theorem succ_childGraph (h : Hierarchy) (id : NodeId) : h.childGraph.succ id = h.children id := by
  simp only [childGraph, Digraph.succ, children, node, List.getD_eq_getElem?_getD,
    List.getElem?_map]
  cases h.nodes[id]? <;> rfl

theorem succ_parentGraph (h : Hierarchy) (id : NodeId) : h.parentGraph.succ id = h.parents id := by
  simp only [parentGraph, Digraph.succ, parents, node, List.getD_eq_getElem?_getD,
    List.getElem?_map]
  cases h.nodes[id]? <;> rfl

/-- `d` is `b` itself or inherits from it through any number of classes. -/
def Descends (h : Hierarchy) (b d : NodeId) : Prop := h.childGraph.Reaches b d

/-- A node and its descendants, depth first, children in key order, each once. -/
def preorder (h : Hierarchy) (id : NodeId) : List NodeId := h.childGraph.preorder id

/-- The root of the cloud that a node belongs to. -/
def cloudRoot (h : Hierarchy) (id : NodeId) : NodeId := h.cloudRoots.getD id id

/-- The classes whose primary sub-vtable has no parent, in name order. -/
def roots (h : Hierarchy) : List String :=
  (h.nodes.filter fun n => n.key.isPrimary && n.parents.isEmpty).map (·.key.className)

def isRoot (h : Hierarchy) (className : String) : Bool := h.roots.contains className

/-- The number of a key, if it is known. -/
def find? (h : Hierarchy) (key : SubVtableKey) : Option NodeId :=
  h.nodes.findIdx? (·.key == key)

def nodeId (h : Hierarchy) (key : SubVtableKey) : Except HierarchyError NodeId :=
  match h.find? key with
  | some id => .ok id
  | none => .error (.unknownKey key)

/-- The node of the primary sub-vtable of a root class. -/
def rootId (h : Hierarchy) (className : String) : Except HierarchyError NodeId :=
  if h.isRoot className then h.nodeId (.primary className) else .error (.notARoot className)

def record? (h : Hierarchy) (className : String) : Option ClassRecord :=
  h.records.find? (·.name == className)

/-- Along every edge from a parent to a child, the child keeps at least as many slots
from its address point on. -/
def Monotone (h : Hierarchy) : Prop :=
  ∀ p c, c ∈ h.children p →
    (h.node p).last - (h.node p).addressPoint ≤ (h.node c).last - (h.node c).addressPoint

end Hierarchy

end VtableCloud
