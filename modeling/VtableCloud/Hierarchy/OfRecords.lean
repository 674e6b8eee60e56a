import VtableCloud.Digraph.Topological
import VtableCloud.Hierarchy.Basic
import VtableCloud.Hierarchy.Collection

/-!
# The hierarchy of a set of records

* `Hierarchy.ofRecords` collects the records, numbers their sub-vtables in key order,
  links each to its parents, and assigns each to the cloud of its root. It fails on a
  malformed or conflicting record, a parent that no record describes, a cycle, or
  parents in different clouds, in this order.
-/

namespace VtableCloud

/-- The sub-vtables of records, each with its record. -/
def subVtablesOf (records : List ClassRecord) : List (ClassRecord × SubVtable) :=
  records.flatMap fun r => r.subVtables.map (r, ·)

/-- The keys of the sub-vtables of records. -/
def keysOf (records : List ClassRecord) : List SubVtableKey :=
  (subVtablesOf records).map fun (r, s) => r.key s.order

/-- The place of a parent key among all keys. -/
def parentId (keys : List SubVtableKey) (child parent : SubVtableKey) :
    Except HierarchyError NodeId :=
  match keys.idxOf? parent with
  | some id => .ok id
  | none => .error (.undefinedParent parent child)

/-- For each sub-vtable the numbers of its parents. -/
def parentRows (records : List ClassRecord) : Except HierarchyError (List (List NodeId)) :=
  let keys := keysOf records
  (subVtablesOf records).mapM fun (r, s) => s.parents.keys.mapM (parentId keys (r.key s.order))

/-- The nodes of records, given the parents of each. -/
def nodesOf (records : List ClassRecord) (parents : Digraph) : List Node :=
  let children := parents.transpose
  (subVtablesOf records).zipIdx.map fun ((r, s), id) => {
    key := r.key s.order
    start := s.start
    last := s.last
    addressPoint := s.addressPoint
    isDefined := r.isDefined
    parents := parents.succ id
    children := children.succ id }

/-- Every sub-vtable of the records as a node, linked to its parents and children. -/
def linkRecords (records : List ClassRecord) : Except HierarchyError (List Node) := do
  return nodesOf records ⟨← parentRows records⟩

namespace Hierarchy

/-- All nodes, parents before children. -/
def topologicalOrder (nodes : List Node) : Except HierarchyError (List NodeId) :=
  match (Digraph.mk (nodes.map (·.parents))).parentsFirst with
  | .ok order => .ok order
  | .error stuck => .error (.cycle (nodes.getD stuck default).key)

/-- Give a node the cloud of its parents, whose clouds are known. A node without
parents is the root of its own. -/
def assignCloud (nodes : List Node) (roots : List NodeId) (id : NodeId) :
    Except HierarchyError (List NodeId) :=
  let rootOf (n : NodeId) := roots.getD n n
  let nameOf (n : NodeId) := (nodes.getD n default).key.className
  match (nodes.getD id default).parents with
  | [] => .ok roots
  | first :: rest =>
    match rest.find? (rootOf · ≠ rootOf first) with
    | some other =>
      .error (.mixedParentClouds (nodes.getD id default).key
        (nameOf (rootOf first)) (nameOf (rootOf other)))
    | none => .ok (roots.set id (rootOf first))

/-- The root of each node's cloud, found parents first. -/
def assignClouds (nodes : List Node) (order : List NodeId) : Except HierarchyError (List NodeId) :=
  order.foldlM (assignCloud nodes) (List.range nodes.length)

/-- The hierarchy that records describe. -/
def ofRecords (records : List ClassRecord) : Except HierarchyError Hierarchy := do
  let records ← collectRecords records
  let nodes ← linkRecords records
  let order ← topologicalOrder nodes
  return ⟨records, nodes, ← assignClouds nodes order⟩

end Hierarchy

end VtableCloud
