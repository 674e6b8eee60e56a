import Mathlib.Data.Nat.Factorization.Basic
import VtableCloud.Proofs.Range.Tuple

/-!
# The check as it is emitted

Rotating a distance right moves its low bits to the top, where any that is set makes the
comparison fail. The number of bits moved is that of the trailing zeros of the alignment, so
the emitted check knows of the alignment only the greatest power of two that divides it.

* `trailingZeros_eq`, `toNat_rotateRight`: the two word operations in terms of numbers;
* `RangeTuple.admits_iff_distance`, `RangeTuple.admitsRotated_iff`: what the two checks demand
  of the distance from the start;
* `RangeTuple.admitsRotated_eq_admits`: they agree on every word, whatever the range, if its
  alignment is a power of two;
* `RangeTuple.Sound.rotated_agrees_iff`: on a range that is not empty they agree just if it has
  one slot or its alignment is a power of two.
-/

namespace VtableCloud

section

variable {w : UInt64} {t q : Nat}

theorem two_pow_le (odd : Odd q) (eq : w.toNat = 2 ^ t * q) : 2 ^ t ≤ w.toNat :=
  eq ▸ Nat.le_mul_of_pos_right _ odd.pos

theorem exponent_lt (odd : Odd q) (eq : w.toNat = 2 ^ t * q) : t < 64 :=
  (Nat.pow_lt_pow_iff_right (by decide)).mp (Nat.lt_of_le_of_lt (two_pow_le odd eq) w.toNat_lt)

theorem trailingZeros_eq (odd : Odd q) (eq : w.toNat = 2 ^ t * q) : trailingZeros w = t := by
  have bit (i : Nat) : w.toBitVec.getLsbD i = (decide (t ≤ i) && q.testBit (i - t)) := by
    rw [BitVec.getLsbD, UInt64.toNat_toBitVec, eq, Nat.testBit_two_pow_mul]
  have lt := exponent_lt odd eq
  rw [trailingZeros, List.findIdx_eq (by simpa using lt)]
  constructor
  · simp [bit, Nat.odd_iff.mp odd]
  · intro j before
    have low : ¬ t ≤ j := by omega
    simp [bit, low]

end

theorem toNat_rotateRight (x : BitVec 64) {t : Nat} (lt : t < 64) :
    (x.rotateRight t).toNat = x.toNat % 2 ^ t * 2 ^ (64 - t) + x.toNat / 2 ^ t := by
  have split : 2 ^ (64 - t) * 2 ^ t = 2 ^ 64 := Nat.pow_sub_mul_pow 2 (Nat.le_of_lt lt)
  have high : x.toNat <<< (64 - t) % 2 ^ 64 = (x.toNat % 2 ^ t) <<< (64 - t) := by
    rw [← split, Nat.mul_comm (2 ^ (64 - t)), Nat.shiftLeft_eq, Nat.shiftLeft_eq,
      Nat.mul_mod_mul_right]
  have low : x.toNat / 2 ^ t < 2 ^ (64 - t) := by
    rw [Nat.div_lt_iff_lt_mul (Nat.two_pow_pos t), split]
    exact x.isLt
  rw [BitVec.toNat_rotateRight, Nat.mod_eq_of_lt lt, high, Nat.shiftRight_eq_div_pow, Nat.or_comm,
    ← Nat.shiftLeft_add_eq_or_of_lt low, Nat.shiftLeft_eq]

/-- A rotated word is small just if no low bit was moved to the top and the others are small. -/
theorem rotateRight_lt_iff (x : BitVec 64) {t n : Nat} (lt : t < 64) (small : n ≤ 2 ^ (64 - t)) :
    (x.rotateRight t).toNat < n ↔ 2 ^ t ∣ x.toNat ∧ x.toNat < n * 2 ^ t := by
  rw [toNat_rotateRight x lt, Nat.dvd_iff_mod_eq_zero, ← Nat.div_lt_iff_lt_mul (Nat.two_pow_pos t)]
  rcases Nat.eq_zero_or_pos (x.toNat % 2 ^ t) with none | some
  · simp [none]
  · have top : 2 ^ (64 - t) ≤ x.toNat % 2 ^ t * 2 ^ (64 - t) := Nat.le_mul_of_pos_left _ some
    have large := Nat.le_trans top (Nat.le_add_right _ (x.toNat / 2 ^ t))
    constructor
    · intro inside
      exact absurd inside (Nat.not_lt.mpr (Nat.le_trans small large))
    · rintro ⟨none, -⟩
      exact absurd none (Nat.ne_of_gt some)

namespace RangeTuple

variable {r : RangeTuple}

/-- The specified check in terms of the distance from the start, which wraps around below it. -/
theorem admits_iff_distance (fits : r.start.toNat + r.width.toNat ≤ wordCount) {a : UInt64} :
    r.admits a = true ↔
      r.alignment.toNat ∣ (a - r.start).toNat ∧ (a - r.start).toNat < r.width.toNat := by
  have wrapped := UInt64.toNat_sub a r.start
  rw [admits_iff]
  by_cases below : r.start.toNat ≤ a.toNat
  · rw [UInt64.toNat_sub_of_le a r.start (UInt64.le_iff_toNat_le.mpr below)]
    constructor
    · rintro ⟨-, lt, aligned⟩
      exact ⟨aligned, lt⟩
    · rintro ⟨aligned, lt⟩
      exact ⟨below, lt, aligned⟩
  · have far : r.width.toNat ≤ (a - r.start).toNat := by
      have := a.toNat_lt
      rw [wordCount] at fits
      omega
    constructor
    · rintro ⟨le, -⟩
      exact absurd le below
    · rintro ⟨-, lt⟩
      omega

/-- A range that holds a whole number of alignments, at least one, and does not reach past the
end of the address space. -/
structure Sound (r : RangeTuple) : Prop where
  positive : 0 < r.alignment.toNat
  whole : r.alignment.toNat ∣ r.width.toNat
  inhabited : 0 < r.width.toNat
  fits : r.start.toNat + r.width.toNat ≤ wordCount

theorem Sound.width_eq (sound : r.Sound) :
    r.width.toNat = r.slots.toNat * r.alignment.toNat := by
  rw [slots, UInt64.toNat_div, Nat.div_mul_cancel sound.whole]

theorem Sound.slots_pos (sound : r.Sound) : 0 < r.slots.toNat := by
  have width := sound.width_eq
  have inhabited := sound.inhabited
  rcases Nat.eq_zero_or_pos r.slots.toNat with none | some
  · rw [none, Nat.zero_mul] at width
    omega
  · exact some

/-- The emitted check takes the greatest power of two in the alignment for the alignment. -/
theorem admitsRotated_iff {t q : Nat} (odd : Odd q) (eq : r.alignment.toNat = 2 ^ t * q)
    {a : UInt64} : r.admitsRotated a = true ↔
      2 ^ t ∣ (a - r.start).toNat ∧ (a - r.start).toNat < r.slots.toNat * 2 ^ t := by
  have lt := exponent_lt odd eq
  have split : 2 ^ (64 - t) * 2 ^ t = 2 ^ 64 := Nat.pow_sub_mul_pow 2 (Nat.le_of_lt lt)
  have small : r.slots.toNat ≤ 2 ^ (64 - t) := by
    have fewer : r.width.toNat / r.alignment.toNat ≤ r.width.toNat / 2 ^ t :=
      Nat.div_le_div_left (two_pow_le odd eq) (Nat.two_pow_pos t)
    have few : r.width.toNat / 2 ^ t < 2 ^ (64 - t) := by
      rw [Nat.div_lt_iff_lt_mul (Nat.two_pow_pos t), split]
      exact r.width.toNat_lt
    rw [slots, UInt64.toNat_div]
    exact Nat.le_of_lt (Nat.lt_of_le_of_lt fewer few)
  rw [admitsRotated, decide_eq_true_iff, trailingZeros_eq odd eq, rotateRight_lt_iff _ lt small]
  rfl

/-- If the alignment is a power of two that divides the width, and the range does not reach past
the end of the address space, the two checks agree on every word. -/
theorem admitsRotated_eq_admits {t : Nat} (pow : r.alignment.toNat = 2 ^ t)
    (whole : r.alignment.toNat ∣ r.width.toNat)
    (fits : r.start.toNat + r.width.toNat ≤ wordCount) (a : UInt64) :
    r.admitsRotated a = r.admits a := by
  have eq : r.alignment.toNat = 2 ^ t * 1 := by rw [pow, Nat.mul_one]
  have width : r.slots.toNat * 2 ^ t = r.width.toNat := by
    rw [slots, UInt64.toNat_div, ← pow, Nat.div_mul_cancel whole]
  rw [Bool.eq_iff_iff, admitsRotated_iff odd_one eq, admits_iff_distance fits, width, pow]

/-- The checks agree on three slots that reach just to the end of the address space, where the
distance of every word below them wraps around. -/
theorem uppermost_rotated_agrees :
    ∃ r : RangeTuple, r.slots = 3 ∧ r.start.toNat + r.width.toNat = wordCount ∧
      ∀ a, r.admitsRotated a = r.admits a := by
  refine ⟨⟨0xffffffffffffffd0, 48, 16⟩, by decide, by decide, fun a => ?_⟩
  exact admitsRotated_eq_admits (t := 4) (by decide) (by decide) (by decide) a

theorem dvd_and_lt_iff {d n : Nat} (positive : 0 < d) : d ∣ n ∧ n < d ↔ n = 0 := by
  constructor
  · rintro ⟨divides, lt⟩
    exact Nat.eq_zero_of_dvd_of_lt divides lt
  · rintro rfl
    exact ⟨Nat.dvd_zero d, positive⟩

/-- The two checks agree on a range just if it has one slot or its alignment is a power of two. -/
theorem Sound.rotated_agrees_iff (sound : r.Sound) :
    (∀ a, r.admitsRotated a = r.admits a) ↔
      r.slots.toNat = 1 ∨ ∃ t, r.alignment.toNat = 2 ^ t := by
  obtain ⟨t, q, odd, eq⟩ := Nat.exists_eq_two_pow_mul_odd (Nat.ne_of_gt sound.positive)
  have width := sound.width_eq
  constructor
  · intro agree
    by_cases one : r.slots.toNat = 1
    · exact Or.inl one
    · refine Or.inr ⟨t, ?_⟩
      -- The emitted check admits what lies that power of two above the start.
      have step : (r.start + .ofNat (2 ^ t) - r.start).toNat = 2 ^ t := by
        rw [UInt64.add_comm, UInt64.add_sub_cancel]
        exact toNat_ofNat_of_lt (Nat.lt_of_le_of_lt (two_pow_le odd eq) r.alignment.toNat_lt)
      have several : 1 < r.slots.toNat := by
        have := sound.slots_pos
        omega
      have admitted : r.admitsRotated (r.start + .ofNat (2 ^ t)) = true := by
        rw [admitsRotated_iff odd eq, step]
        exact ⟨Nat.dvd_refl _, (Nat.lt_mul_iff_one_lt_left (Nat.two_pow_pos t)).mpr several⟩
      rw [agree, admits_iff_distance sound.fits, step] at admitted
      exact Nat.dvd_antisymm admitted.1 (eq ▸ Nat.dvd_mul_right _ q)
  · intro enough a
    rw [Bool.eq_iff_iff, admitsRotated_iff odd eq, admits_iff_distance sound.fits]
    rcases enough with one | ⟨s, pow⟩
    · rw [width, one, Nat.one_mul, Nat.one_mul, dvd_and_lt_iff (Nat.two_pow_pos t),
        dvd_and_lt_iff sound.positive]
    · have coprime : Nat.Coprime q (2 ^ s) := odd.coprime_two_right.pow_right s
      have divides : q ∣ 2 ^ s := pow ▸ eq ▸ Nat.dvd_mul_left q (2 ^ t)
      rw [width, eq, coprime.eq_one_of_dvd divides, Nat.mul_one]

end RangeTuple

end VtableCloud
