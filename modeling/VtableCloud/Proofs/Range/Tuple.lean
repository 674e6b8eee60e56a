import VtableCloud.Layouts.Range
import VtableCloud.Proofs.Word

/-!
# What ranges admit

Ranges are computed in words that wrap around. As long as a table and one more alignment
fit in the address space, they hold the addresses they are meant to hold, and in no case others.

* `RangeTuple.admits_iff`: the check in terms of numbers;
* `exists_of_admits_alignedRange`: a range of address points that lie one alignment apart holds
  no others, even if words wrap around;
* `admits_alignedRange`, `slots_alignedRange`: if they do not, it holds all of these.
-/

namespace VtableCloud

theorem toNat_ofNat_of_lt {n : Nat} (lt : n < wordCount) : (UInt64.ofNat n).toNat = n :=
  UInt64.toNat_ofNat_of_lt lt

namespace RangeTuple

theorem admits_iff {r : RangeTuple} {a : UInt64} :
    r.admits a = true ↔ r.start.toNat ≤ a.toNat ∧ a.toNat - r.start.toNat < r.width.toNat ∧
      r.alignment.toNat ∣ a.toNat - r.start.toNat := by
  simp only [admits, Bool.and_eq_true, decide_eq_true_eq, beq_iff_eq, and_assoc]
  rw [UInt64.le_iff_toNat_le]
  refine and_congr_right fun le => ?_
  have distance : (a - r.start).toNat = a.toNat - r.start.toNat := UInt64.toNat_sub_of_le _ _ le
  rw [UInt64.lt_iff_toNat_lt, distance, ← UInt64.toNat_inj, UInt64.toNat_mod, distance,
    Nat.dvd_iff_mod_eq_zero]
  rfl

end RangeTuple

namespace CloudLayout

variable {c : CloudLayout} {first count : Nat}

/-- A table and one more alignment fit in the address space. -/
def FitsAddressSpace (c : CloudLayout) : Prop :=
  c.slots.length * c.wordWidth + c.alignment * c.wordWidth < wordCount

instance (c : CloudLayout) : Decidable c.FitsAddressSpace := inferInstanceAs (Decidable (_ < _))

theorem alignmentBytes_of_lt (lt : c.alignment * c.wordWidth < wordCount) :
    c.alignmentBytes = c.alignment * c.wordWidth :=
  unsignedWord_of_lt lt

/-- The address points of a range in bytes. -/
theorem bytes_eq (c : CloudLayout) (first i : Nat) : (first + i * c.alignment) * c.wordWidth =
    first * c.wordWidth + i * (c.alignment * c.wordWidth) := by
  rw [Nat.add_mul, Nat.mul_assoc]

/-- Even if words wrap around, a range holds no other word than those of its address points. -/
theorem exists_of_admits_alignedRange {a : UInt64}
    (admitted : (c.alignedRange first count).admits a = true) :
    ∃ i < count, a = .ofNat ((first + i * c.alignment) * c.wordWidth) := by
  rw [RangeTuple.admits_iff, alignedRange] at admitted
  simp only [UInt64.toNat_ofNat', alignmentBytes, unsignedWord, wordCount] at admitted
  obtain ⟨le, lt, i, eq⟩ := admitted
  rw [Nat.mod_mod] at eq
  have wrapped : count * (c.alignment * c.wordWidth % 2 ^ 64) % 2 ^ 64 ≤
      count * (c.alignment * c.wordWidth % 2 ^ 64) := Nat.mod_le _ _
  refine ⟨i, ?_, ?_⟩
  · rw [eq, Nat.mul_comm] at lt
    exact Nat.lt_of_mul_lt_mul_right (Nat.lt_of_lt_of_le lt wrapped)
  · rw [bytes_eq, ← UInt64.toNat_inj, UInt64.toNat_ofNat', Nat.add_mod, ← Nat.mul_mod_mod i,
      Nat.mul_comm i, ← eq, Nat.add_mod_mod, Nat.add_sub_cancel' le, Nat.mod_eq_of_lt a.toNat_lt]

/-- As long as its start and its width do not wrap around, a range holds all its address points
that are words. -/
theorem admits_alignedRange_of_lt (positive : 0 < c.alignment * c.wordWidth)
    (start : first * c.wordWidth < wordCount)
    (width : count * (c.alignment * c.wordWidth) < wordCount)
    {i : Nat} (lt : i < count) (inside : (first + i * c.alignment) * c.wordWidth < wordCount) :
    (c.alignedRange first count).admits
      (.ofNat ((first + i * c.alignment) * c.wordWidth)) = true := by
  have step : c.alignment * c.wordWidth ≤ count * (c.alignment * c.wordWidth) :=
    Nat.le_mul_of_pos_left _ (by omega)
  have within := Nat.mul_lt_mul_of_pos_right lt positive
  rw [RangeTuple.admits_iff, alignedRange, alignmentBytes_of_lt (by omega),
    toNat_ofNat_of_lt start, toNat_ofNat_of_lt width, toNat_ofNat_of_lt inside,
    toNat_ofNat_of_lt (by omega), bytes_eq]
  exact ⟨by omega, by omega, i, by rw [Nat.add_sub_cancel_left, Nat.mul_comm]⟩

/-- The range of address points one alignment apart holds these and no other address. -/
theorem admits_alignedRange (positive : 0 < c.alignment * c.wordWidth)
    (fits : first * c.wordWidth + count * (c.alignment * c.wordWidth) < wordCount) {a : UInt64} :
    (c.alignedRange first count).admits a = true ↔
      ∃ i < count, a.toNat = (first + i * c.alignment) * c.wordWidth := by
  have inside : ∀ i < count, (first + i * c.alignment) * c.wordWidth < wordCount := by
    intro i lt
    have within := Nat.mul_lt_mul_of_pos_right lt positive
    rw [bytes_eq]
    omega
  constructor
  · intro admitted
    obtain ⟨i, lt, rfl⟩ := exists_of_admits_alignedRange admitted
    exact ⟨i, lt, toNat_ofNat_of_lt (inside i lt)⟩
  · rintro ⟨i, lt, eq⟩
    rw [← UInt64.ofNat_toNat (x := a), eq]
    exact admits_alignedRange_of_lt positive (by omega) (by omega) lt (inside i lt)

theorem slots_alignedRange (positive : 0 < c.alignment * c.wordWidth)
    (fits : first * c.wordWidth + count * (c.alignment * c.wordWidth) < wordCount)
    (some : 0 < count) : (c.alignedRange first count).slots.toNat = count := by
  have step : c.alignment * c.wordWidth ≤ count * (c.alignment * c.wordWidth) :=
    Nat.le_mul_of_pos_left _ some
  rw [RangeTuple.slots, alignedRange, UInt64.toNat_div, alignmentBytes_of_lt (by omega),
    toNat_ofNat_of_lt (by omega), toNat_ofNat_of_lt (by omega), Nat.mul_div_cancel _ positive]

end CloudLayout

/-- Each table and one more alignment fit in the address space. -/
def Layouts.FitsAddressSpace (l : Layouts) : Prop := ∀ c ∈ l.clouds, c.FitsAddressSpace

instance (l : Layouts) : Decidable l.FitsAddressSpace :=
  inferInstanceAs (Decidable (∀ c ∈ l.clouds, c.FitsAddressSpace))

end VtableCloud
