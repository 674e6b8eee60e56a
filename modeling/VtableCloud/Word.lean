/-!
# Machine words

A word has 64 bits. Slot numbers, sizes and addresses are unsigned words; offsets are
signed words in two's complement.
-/

namespace VtableCloud

/-- The number of values of a word, 2^64. -/
def wordCount : Nat := 18446744073709551616

/-- One more than the greatest signed word, 2^63. -/
def signBit : Nat := 9223372036854775808

instance : @NeZero Nat Zero.ofOfNat0 wordCount := ⟨Nat.succ_ne_zero 18446744073709551615⟩

/-- An unsigned word. -/
abbrev Word := Fin wordCount

def fitsUnsigned (i : Int) : Bool := decide (0 ≤ i ∧ i < wordCount)

def fitsSigned (i : Int) : Bool := decide (-(signBit : Int) ≤ i ∧ i < signBit)

/-- The signed word that agrees with a number in its last 64 bits. -/
def signedWord (i : Int) : Int := i.bmod wordCount

/-- The last 64 bits of a number. -/
def unsignedWord (n : Nat) : Nat := n % wordCount

end VtableCloud
