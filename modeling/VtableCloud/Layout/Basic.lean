import VtableCloud.Layout.Stream

/-!
# The layout of one cloud

A cloud's new table together with the place of each defined sub-vtable in it.

* `CloudLayout.ofArrangement` records where an arrangement puts its members;
* `addressPointPosition?` and `addressPointOffset?` find an address point in the table.
-/

namespace VtableCloud

/-- Where one sub-vtable ended up: the new positions of its padding and its slots. -/
structure Placement where
  key : SubVtableKey
  node : NodeId
  prePad : Nat
  positions : List Nat
  deriving DecidableEq, Repr, Inhabited

/-- The new positions of the slots of a sub-vtable, padding left out. -/
def Placement.newIndices (p : Placement) : List Nat := p.positions.drop p.prePad

/-- The new table of one cloud. The alignment counts slots, the word width bytes. -/
structure CloudLayout where
  root : String
  strategy : Strategy
  wordWidth : Nat
  alignment : Nat
  preorder : List NodeId
  slots : List Slot
  placements : List Placement
  deriving DecidableEq, Repr, Inhabited

/-- A number at the right end of five columns, or as long as it is. -/
def fiveColumns (n : Nat) : String :=
  String.ofList (List.replicate (5 - (toString n).length) ' ') ++ toString n

namespace CloudLayout

/-- Record where an arrangement puts the defined members. -/
def ofArrangement (root : String) (options : LayoutOptions) (members : List Member)
    (table : Arrangement) : CloudLayout where
  root := root
  strategy := options.strategy
  wordWidth := options.wordWidth
  alignment := table.alignment
  preorder := members.map (·.id)
  slots := table.slots
  placements := (members.filter (·.node.isDefined)).map fun m =>
    ⟨m.key, m.id, m.pad, m.positions table.slots⟩

def alignmentBytes (c : CloudLayout) : Nat := unsignedWord (c.alignment * c.wordWidth)

/-- The symbol of the new table. -/
def tableName (c : CloudLayout) : String := "_SD" ++ c.root

def placement? (c : CloudLayout) (key : SubVtableKey) : Option Placement :=
  c.placements.find? (·.key == key)

/-- The new position of the address point of a sub-vtable. -/
def addressPointPosition? (c : CloudLayout) (h : Hierarchy) (key : SubVtableKey) : Option Nat := do
  let p ← c.placement? key
  p.newIndices[(h.node p.node).addressOffset]?

/-- The distance in bytes of an address point from the start of the table. -/
def addressPointOffset? (c : CloudLayout) (h : Hierarchy) (key : SubVtableKey) : Option Nat :=
  (c.addressPointPosition? h key).map fun position => unsignedWord (position * c.wordWidth)

/-- A heading and a line for each slot. -/
def dump (c : CloudLayout) : String :=
  let heading := s!"{c.tableName} ({c.strategy.name}, {c.slots.length} slots, " ++
    s!"align {c.alignmentBytes}):\n"
  String.join (heading :: c.slots.zipIdx.map fun (slot, i) =>
    s!"{fiveColumns i} : {slot.text}\n")

end CloudLayout

end VtableCloud
