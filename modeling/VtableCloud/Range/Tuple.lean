/-!
# Ranges of valid addresses

A range holds the addresses `start`, `start + alignment`, … below `start + width`,
all counted in bytes from the start of a table. Addresses are machine words, and so
is the arithmetic of the emitted check.

* `RangeTuple.admits`: the check as it is specified;
* `RangeTuple.admitsRotated`: the check as it is emitted.
-/

namespace VtableCloud

structure RangeTuple where
  start : UInt64
  width : UInt64
  alignment : UInt64
  deriving DecidableEq, Repr, Inhabited

/-- The number of times that 2 divides a word, 64 for zero. -/
def trailingZeros (w : UInt64) : Nat :=
  (List.range 64).findIdx fun i => w.toBitVec.getLsbD i

namespace RangeTuple

def admits (r : RangeTuple) (address : UInt64) : Bool :=
  r.start ≤ address && address - r.start < r.width &&
    (address - r.start) % r.alignment == 0

/-- The number of admitted addresses. -/
def slots (r : RangeTuple) : UInt64 := r.width / r.alignment

/-- Rotating the distance right by the logarithm of the alignment moves misaligned low
bits to the top, so that one comparison covers both bounds and the alignment. -/
def admitsRotated (r : RangeTuple) (address : UInt64) : Bool :=
  ((address - r.start).toBitVec.rotateRight (trailingZeros r.alignment)).toNat < r.slots.toNat

end RangeTuple

/-- A union of ranges, the widest first. -/
abbrev RangeSet := List RangeTuple

def RangeSet.admits (set : RangeSet) (address : UInt64) : Bool :=
  List.any set (RangeTuple.admits · address)

end VtableCloud
