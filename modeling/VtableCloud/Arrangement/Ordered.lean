import VtableCloud.Arrangement.Member

/-!
# The ordered arrangement

The defined members of a cloud stand one after another in preorder, each moved on
until its address point is a multiple of the alignment. The alignment is the widest
member, defined or not, rounded up to a power of two.
-/

namespace VtableCloud

/-- The least power of two that is not below a number. -/
def leastPowerOfTwo (n : Nat) : Nat := if n ≤ 1 then 1 else Nat.pow 2 ((n - 1).log2 + 1)

/-- The least power of two that is not below a word, or 0 if it is none itself. -/
def nextPowerOfTwo (n : Nat) : Nat := if n ≤ signBit then leastPowerOfTwo n else 0

/-- The alignment that the widest member calls for. -/
def orderedAlignment (members : List Member) : Nat :=
  nextPowerOfTwo ((members.map Member.size).foldl max 1)

/-- How many slots lie between a position and the next multiple of the alignment. -/
def alignmentGap (alignment position : Nat) : Nat :=
  if position % alignment = 0 then 0 else alignment - position % alignment

/-- The slots from a position on: for each defined member the filler that aligns its
address point, then its own slots. -/
def orderedFrom (alignment position : Nat) : List Member → List Slot
  | [] => []
  | m :: rest =>
    if m.node.isDefined then
      let gap := alignmentGap alignment (unsignedWord (position + m.before))
      List.replicate gap .dummy ++ m.entries ++
        orderedFrom alignment (position + gap + m.extent) rest
    else
      orderedFrom alignment position rest

def ordered (members : List Member) : Arrangement :=
  let alignment := orderedAlignment members
  ⟨orderedFrom alignment 0 members, alignment⟩

/-- There is a defined member to align, and the alignment is 0. A position has no remainder
then. -/
def orderedFails (members : List Member) : Bool :=
  orderedAlignment members == 0 && members.any (·.node.isDefined)

end VtableCloud
