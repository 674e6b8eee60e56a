import VtableCloud.Hierarchy.Query
import VtableCloud.Layouts.Basic
import VtableCloud.Range.Tuple

/-!
# Valid addresses of virtual calls

A call through a sub-vtable may only load a pointer to the address point of a defined
sub-vtable that descends from it.

* `Layouts.rangeFor`: the ranges of these addresses, as one span or run by run;
* `Layouts.rangeForSite`: the ranges where more is known of the receiver;
* `Layouts.runtimeTable`: a span for each class that can be called.
-/

namespace VtableCloud

/-- How closely ranges follow the legal addresses. -/
inductive Precision where
  /-- One range from the lowest to the highest. -/
  | single
  /-- One range per run of address points that lie one alignment apart. -/
  | precise
  deriving DecidableEq, Repr, Inhabited

def Precision.name : Precision → String
  | single => "single"
  | precise => "precise"

/-- The range of one class in the runtime table, and the table it points into. -/
structure RangeEntry where
  className : String
  table : String
  range : RangeTuple
  deriving DecidableEq, Repr, Inhabited

/-- Address points in preorder as groups in which each lies one step after the one before:
the first of each group and the size of the group. -/
def steppedGroups (step : Nat) : List Nat → List (Nat × Nat)
  | [] => []
  | ap :: rest =>
    match steppedGroups step rest with
    | [] => [(ap, 1)]
    | (first, count) :: more =>
      if first = ap + step then (ap, count + 1) :: more else (ap, 1) :: (first, count) :: more

namespace CloudLayout

/-- The range of `count` address points that lie one alignment apart. -/
def alignedRange (c : CloudLayout) (first count : Nat) : RangeTuple where
  start := .ofNat (first * c.wordWidth)
  width := .ofNat (count * c.alignmentBytes)
  alignment := .ofNat c.alignmentBytes

/-- The range from the lowest to the highest of `count` address points. Gaps in between
are admitted too. -/
def spanRange (c : CloudLayout) (lowest highest count : Nat) : RangeTuple where
  start := .ofNat (lowest * c.wordWidth)
  width := max (.ofNat (count * c.alignmentBytes))
    (.ofNat ((highest - lowest) * c.wordWidth) + .ofNat c.alignmentBytes)
  alignment := .ofNat c.alignmentBytes

end CloudLayout

namespace Layouts

/-- The new position of the address point of a defined node. -/
def addressPointSlot (l : Layouts) (c : CloudLayout) (id : NodeId) : Except LayoutError Nat :=
  match c.addressPointPosition? l.hierarchy (l.hierarchy.key id) with
  | some position => .ok position
  | none => .error (.invariantViolation c.root (l.hierarchy.key id) .unplaced)

/-- The new positions of the address points of the defined ones among some nodes. -/
def addressPointSlots (l : Layouts) (c : CloudLayout) (ids : List NodeId) :
    Except LayoutError (List Nat) :=
  (ids.filter (l.hierarchy.isDefined ·)).mapM (l.addressPointSlot c)

/-- The one range from the lowest to the highest descendant. -/
def singleRange (l : Layouts) (c : CloudLayout) (id : NodeId) : Except LayoutError RangeSet := do
  let aps ← l.addressPointSlots c (l.hierarchy.preorder id)
  let lowest := aps.min?.getD 0
  let highest := aps.max?.getD 0
  return [c.spanRange lowest highest (l.hierarchy.cloudSize id)]

/-- The ranges of the descendants in one run of the cloud's preorder. -/
def runRanges (l : Layouts) (c : CloudLayout) (r : Run) : Except LayoutError RangeSet := do
  let aps ← l.addressPointSlots c ((c.preorder.drop r.start).take r.length)
  return (steppedGroups c.alignment aps).map fun (first, count) => c.alignedRange first count

/-- The ranges of all runs of descendants, the widest first. -/
def preciseRanges (l : Layouts) (c : CloudLayout) (id : NodeId) : Except LayoutError RangeSet := do
  let ranges ← (l.hierarchy.descendantRuns c.preorder id).mapM (l.runRanges c)
  return ranges.flatten.mergeSort fun a b => decide (b.width ≤ a.width)

/-- The valid addresses of a call through a key. There are none if the key is unknown or
nothing defined descends from it; such a call never passes its check. -/
def rangeFor (l : Layouts) (key : SubVtableKey) (precision : Precision) :
    Except LayoutError (Option RangeSet) :=
  match l.hierarchy.find? key with
  | none => .ok none
  | some id =>
    match l.hierarchy.representative id with
    | .error (.noDefinedDescendant _) => .ok none
    | .error e => .error (.hierarchy e)
    | .ok _ => do
      let c ← l.cloudOf id
      match precision with
      | .single => some <$> l.singleRange c id
      | .precise => some <$> l.preciseRanges c id

/-- The valid addresses of a call whose receiver has one static class but is known to be
at least of another. Where the upcast between them is not unique, the range of the
static class stands. -/
def rangeForSite (l : Layouts) (staticClass preciseClass : String) :
    Except LayoutError (Option RangeSet) :=
  match l.hierarchy.upcast preciseClass staticClass with
  | .unique order => l.rangeFor ⟨preciseClass, order⟩ .precise
  | _ => l.rangeFor (.primary staticClass) .precise

/-- The runtime ranges of one class. -/
def runtimeEntries (l : Layouts) (record : ClassRecord) : Except LayoutError (List RangeEntry) := do
  let key := record.key 0
  match ← l.rangeFor key .single with
  | none => return []
  | some set =>
    let id ← (l.hierarchy.nodeId key).mapError .hierarchy
    let c ← l.cloudOf id
    return set.map fun range => ⟨record.name, c.tableName, range⟩

/-- The span of every class whose primary sub-vtable has a defined descendant. -/
def runtimeTable (l : Layouts) : Except LayoutError (List RangeEntry) := do
  return (← l.hierarchy.records.mapM l.runtimeEntries).flatten

end Layouts

end VtableCloud
