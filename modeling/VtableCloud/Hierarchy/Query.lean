import VtableCloud.Digraph.Search
import VtableCloud.Hierarchy.Basic
import VtableCloud.Word

/-!
# Questions about a hierarchy

* `Hierarchy.cloudSize`: how many defined sub-vtables descend from a node;
* `Hierarchy.representative`: the defined sub-vtable that stands for a node;
* `Hierarchy.knows`, `Hierarchy.preorderKeys`: known keys, and the keys below one of them;
* `Hierarchy.isAncestor`: inheritance, followed upwards;
* `Hierarchy.upcast`: the sub-vtable in which an upcast lands;
* `addressPoint`, `addressPointOrder?`, `subVtableOrder?`, `functionSlot?`: slots of a class.
-/

namespace VtableCloud

/-- The first listing of a function in a sub-vtable, as a distance from the address point
in a signed word. -/
def SubVtable.functionOffset? (s : SubVtable) (name : String) : Option Int :=
  (s.functions.find? (·.name == name)).map fun f =>
    signedWord ((s.start + f.offset : Nat) - (s.addressPoint : Nat))

/-- Where an upcast from a derived class to a base class lands. -/
inductive UpcastPath where
  /-- One sub-vtable of the derived class descends from the base, the one of this order. -/
  | unique (order : Nat)
  | ambiguous
  | unrelated
  deriving DecidableEq, Repr

namespace Hierarchy

/-- The number of defined nodes among a node and its descendants. -/
def cloudSize (h : Hierarchy) (id : NodeId) : Nat := (h.preorder id).countP (h.isDefined ·)

/-- The first defined node below a node, in preorder. -/
def firstDefinedChild (h : Hierarchy) (id : NodeId) : Except HierarchyError NodeId :=
  match ((h.preorder id).drop 1).find? (h.isDefined ·) with
  | some d => .ok d
  | none => .error (.noDefinedDescendant (h.key id))

/-- The node itself if it is defined, else the first defined node below it. -/
def representative (h : Hierarchy) (id : NodeId) : Except HierarchyError NodeId :=
  if h.isDefined id then .ok id else h.firstDefinedChild id

def knows (h : Hierarchy) (key : SubVtableKey) : Bool := (h.find? key).isSome

/-- The keys of the preorder from a key. -/
def preorderKeys (h : Hierarchy) (key : SubVtableKey) :
    Except HierarchyError (List SubVtableKey) := do
  let id ← h.nodeId key
  return (h.preorder id).map h.key

/-- Whether following parents from `derived` leads to `base`. -/
def isAncestorId (h : Hierarchy) (base derived : NodeId) : Bool :=
  h.parentGraph.search derived base

/-- Whether both keys are known and `derived` is `base` or inherits from it. -/
def isAncestor (h : Hierarchy) (base derived : SubVtableKey) : Bool :=
  match h.find? base, h.find? derived with
  | some b, some d => h.isAncestorId b d
  | _, _ => false

/-- The orders of the sub-vtables of a class that descend from a node. -/
def ordersBelow (h : Hierarchy) (base : NodeId) (derived : ClassRecord) : List Nat :=
  (derived.subVtables.map (·.order)).filter fun order =>
    (h.find? (derived.key order)).any (h.isAncestorId base ·)

/-- Which sub-vtable of `derived` descends from the primary sub-vtable of `base`. -/
def upcast (h : Hierarchy) (derived base : String) : UpcastPath :=
  match h.record? derived, h.find? (.primary base) with
  | some record, some id =>
    match h.ordersBelow id record with
    | [] => .unrelated
    | [order] => .unique order
    | _ => .ambiguous
  | _, _ => .unrelated

/-- The slot that pointers to a sub-vtable point at. -/
def addressPoint (h : Hierarchy) (key : SubVtableKey) : Except HierarchyError Nat := do
  let id ← h.nodeId key
  return (h.node id).addressPoint

/-- The order of the sub-vtable of a class whose address point is a slot. -/
def addressPointOrder? (h : Hierarchy) (className : String) (slot : Nat) : Option Nat := do
  let record ← h.record? className
  (record.subVtables.find? (·.addressPoint == slot)).map (·.order)

/-- The order of the sub-vtable of a class that holds a slot. -/
def subVtableOrder? (h : Hierarchy) (className : String) (slot : Nat) : Option Nat := do
  let record ← h.record? className
  (record.subVtables.find? (·.contains slot)).map (·.order)

/-- The sub-vtable of a class that lists a function, and the function's slot counted
from the address point. -/
def functionSlot? (h : Hierarchy) (className name : String) : Option (SubVtableKey × Int) := do
  let record ← h.record? className
  record.subVtables.findSome? fun s =>
    (s.functionOffset? name).map (record.key s.order, ·)

end Hierarchy

end VtableCloud
