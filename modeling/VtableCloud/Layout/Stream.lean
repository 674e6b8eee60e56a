import VtableCloud.Layout.Place
import VtableCloud.Layout.Strategy

/-!
# Checking the slots of a table

Whatever strategy arranged them, the slots of a table have to hold every slot of every
defined member exactly once and in order, and nothing else but filler. In an ordered
table the slots of a member also have to be contiguous and its address point aligned.

* `slotViolation?` looks at one slot, `memberError?` at one member;
* `checkStream` reports the first that is wrong, slots before members.
-/

namespace VtableCloud

/-- A member and, if it is defined, the first position of each of its slots in a table. -/
structure Located where
  member : Member
  places : Array (Option Nat)
  deriving Repr, Inhabited

namespace Located

/-- Find the slots of a member in a table. -/
def ofMember (slots : List Slot) (m : Member) : Located :=
  ⟨m, if m.node.isDefined then m.firstPlaces slots else #[]⟩

/-- The first position of the slot at an offset, if it comes before a given one. -/
def before? (l : Located) (offset position : Nat) : Option Nat :=
  (l.places.getD offset none).filter (· < position)

theorem before?_ofMember {m : Member} {slots : List Slot} {offset position : Nat}
    (defined : m.node.isDefined = true) (lt : offset < m.extent) :
    (ofMember slots m).before? offset position =
      (slots.idxOf? (m.entry offset)).filter (· < position) := by
  simp only [before?, ofMember, defined, if_true, Array.getD_eq_getD_getElem?,
    Member.getElem?_firstPlaces lt, Option.getD_some]

end Located

/-- What is wrong with the slot at a position: it belongs to no defined member, lies
outside of its member, or has been placed before. -/
def slotViolation? (located : List Located) (position : Nat) :
    Slot → Option (SubVtableKey × Violation)
  | .dummy => none
  | .entry key index =>
    match located.find? (·.member.key == key) with
    | none => some (key, .notAMember)
    | some l =>
      let m := l.member
      if m.node.isDefined = false then
        some (key, .undefinedPlaced)
      else if index < m.first ∨ (m.node.last : Int) < index then
        some (key, .outside index m.first m.node.last)
      else
        (l.before? (index - m.first).toNat position).map fun previous =>
          (key, .placedTwice index previous position)

/-- The first violation among the slots that stand from a position on. -/
def slotsViolation? (located : List Located) (position : Nat) :
    List Slot → Option (SubVtableKey × Violation)
  | [] => none
  | slot :: rest =>
    match slotViolation? located position slot with
    | some violation => some violation
    | none => slotsViolation? located (position + 1) rest

def increasing (positions : List Nat) : Bool :=
  (positions.zip (positions.drop 1)).all fun (a, b) => decide (a < b)

/-- What is wrong with the positions of a defined member in an ordered table. They are as many
as the size of the member, whose first and last positions and address point are looked up. -/
def orderedError? (root : String) (alignment : Nat) (m : Member) (positions : List Nat) :
    Option LayoutError :=
  match positions[0]?, positions[m.size - 1]? with
  | some first, some last =>
    if last - first + 1 ≠ m.size then
      some (.invariantViolation root m.key .scattered)
    else match positions[unsignedWord m.before]? with
    | some addressPoint =>
      if alignment = 0 then
        some (.fault .zeroDivisor)
      else if addressPoint % alignment ≠ 0 then
        some (.invariantViolation root m.key (.unaligned addressPoint alignment))
      else
        none
    | none => some (.fault .indexOutOfBounds)
  | _, _ => some (.fault .indexOutOfBounds)

/-- What is wrong with the positions of a member. An undefined member has none. -/
def memberError? (root : String) (strategy : Strategy) (alignment : Nat) (l : Located) :
    Option LayoutError :=
  let m := l.member
  if m.node.isDefined then
    let positions := notedPositions l.places
    if positions.length ≠ m.size then
      some (.invariantViolation root m.key (.incomplete positions.length m.size))
    else if increasing positions = false then
      some (.invariantViolation root m.key .disordered)
    else match strategy with
      | .ordered => orderedError? root alignment m positions
      | .interleaved => none
  else
    none

/-- What is wrong with the slots, or else with the members. -/
def streamError? (root : String) (strategy : Strategy) (members : List Member)
    (table : Arrangement) : Option LayoutError :=
  let located := members.map (Located.ofMember table.slots)
  match slotsViolation? located 0 table.slots with
  | some (key, violation) => some (.invariantViolation root key violation)
  | none => located.findSome? (memberError? root strategy table.alignment)

def checkStream (root : String) (strategy : Strategy) (members : List Member)
    (table : Arrangement) : Except LayoutError Unit :=
  match streamError? root strategy members table with
  | some error => .error error
  | none => .ok ()

end VtableCloud
