import VtableCloud.Arrangement.Interleaved
import VtableCloud.Arrangement.Ordered
import VtableCloud.Layout.Containment
import VtableCloud.Layout.Coverage

/-!
# Laying out a hierarchy

Every cloud of a hierarchy gets one new table. A layout that breaks one of its
guarantees is refused.

* `Hierarchy.layoutCloud` lays out one cloud;
* `Layouts.build` lays out all of them;
* `Layouts.cloudOf` finds the layout that hosts a node.
-/

namespace VtableCloud

def Strategy.arrange : Strategy → List Member → Arrangement
  | ordered => VtableCloud.ordered
  | interleaved => VtableCloud.interleaved

/-- Whether no table comes of the members. -/
def Strategy.fails : Strategy → List Member → Bool
  | ordered, members => orderedFails members
  | interleaved, _ => false

/-- The table of some members. -/
def Strategy.table (strategy : Strategy) (members : List Member) :
    Except LayoutError Arrangement :=
  if strategy.fails members then .error (.fault .zeroDivisor) else .ok (strategy.arrange members)

namespace Hierarchy

/-- The members of a root's cloud, padded as far as they need. -/
def paddedMembers (h : Hierarchy) (root : NodeId) : List Member :=
  let preorder := h.preorder root
  h.members preorder (h.prePadding preorder)

/-- Lay out the cloud of a root class and verify the result. -/
def layoutCloud (h : Hierarchy) (options : LayoutOptions) (root : String) :
    Except LayoutError CloudLayout := do
  let options ← options.check
  let id ← (h.rootId root).mapError .hierarchy
  let members := h.paddedMembers id
  let table ← options.strategy.table members
  checkStream root options.strategy members table
  let layout := CloudLayout.ofArrangement root options members table
  layout.checkContainment h
  return layout

/-- Lay out the cloud of a root class and check the runs of its members as well. -/
def layoutCheckedCloud (h : Hierarchy) (options : LayoutOptions) (root : String) :
    Except LayoutError CloudLayout := do
  let layout ← h.layoutCloud options root
  layout.checkDescendantRuns h
  return layout

end Hierarchy

/-- The layouts of the clouds of a hierarchy, in the order of their roots. -/
structure Layouts where
  hierarchy : Hierarchy
  options : LayoutOptions
  clouds : List CloudLayout
  deriving DecidableEq, Repr, Inhabited

namespace Layouts

/-- Lay out every cloud of a hierarchy. -/
def build (h : Hierarchy) (options : LayoutOptions) : Except LayoutError Layouts := do
  let options ← options.check
  return ⟨h, options, ← h.roots.mapM (h.layoutCheckedCloud options)⟩

/-- Forget the layouts but not what they were made of. -/
def clear (l : Layouts) : Layouts := { l with clouds := [] }

def cloud? (l : Layouts) (root : String) : Option CloudLayout := l.clouds.find? (·.root == root)

/-- The layout that hosts a node. -/
def cloudOf (l : Layouts) (id : NodeId) : Except LayoutError CloudLayout :=
  let root := (l.hierarchy.key (l.hierarchy.cloudRoot id)).className
  match l.cloud? root with
  | some layout => .ok layout
  | none => .error (.invariantViolation root (l.hierarchy.key id) .neverLaidOut)

end Layouts

end VtableCloud
