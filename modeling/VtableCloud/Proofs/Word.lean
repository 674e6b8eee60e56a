import VtableCloud.Word

/-!
# Numbers as machine words

* `signedWord_eq_iff`: which numbers are their own signed words;
* `exists_signedWord_eq`: a signed word is off by a multiple of the number of words;
* `signedWord_of_lt`, `signedWord_of_le`: how an unsigned word is read as a signed one;
* `exists_unsignedWord_eq`, `unsignedWord_mod`: the last 64 bits of a number.
-/

namespace VtableCloud

/-- A number is its own signed word just if it is one. -/
theorem signedWord_eq_iff {i : Int} : signedWord i = i ↔ fitsSigned i = true := by
  rw [signedWord, Int.bmod_def, fitsSigned, decide_eq_true_eq, wordCount, signBit]
  split <;> omega

/-- A signed word is the number that it stands for up to a multiple of the number of words. -/
theorem wordCount_dvd_signedWord_sub (i : Int) : (wordCount : Int) ∣ signedWord i - i := by
  rw [signedWord, Int.bmod_def, wordCount]
  split
  · omega
  · omega

theorem exists_signedWord_eq (i : Int) : ∃ k : Int, signedWord i = i + wordCount * k := by
  obtain ⟨k, eq⟩ := wordCount_dvd_signedWord_sub i
  exact ⟨k, by omega⟩

theorem signedWord_le {i : Int} (nonneg : 0 ≤ i) : signedWord i ≤ i := by
  rw [signedWord, Int.bmod_def, wordCount]
  split <;> omega

theorem signBit_le_of_signedWord_neg {i : Int} (nonneg : 0 ≤ i) (neg : signedWord i < 0) :
    (signBit : Int) ≤ i := by
  rw [signedWord, Int.bmod_def, wordCount] at neg
  rw [signBit]
  split at neg <;> omega

/-- A number below the sign bit is a signed word. -/
theorem signedWord_of_lt {n : Nat} (lt : n < signBit) : signedWord n = n := by
  rw [signBit] at lt
  rw [signedWord, Int.bmod_def, wordCount]
  split <;> omega

/-- A word with the sign bit set is taken for a negative number. -/
theorem signedWord_of_le {n : Nat} (le : signBit ≤ n) (lt : n < wordCount) :
    signedWord n = (n : Int) - wordCount := by
  rw [signBit] at le
  rw [wordCount] at lt
  rw [signedWord, Int.bmod_def, wordCount]
  split <;> omega

theorem unsignedWord_of_lt {n : Nat} (lt : n < wordCount) : unsignedWord n = n :=
  Nat.mod_eq_of_lt lt

theorem unsignedWord_lt (n : Nat) : unsignedWord n < wordCount := Nat.mod_lt n (by decide)

theorem exists_unsignedWord_eq (n : Nat) : ∃ j, n = unsignedWord n + wordCount * j :=
  ⟨n / wordCount, (Nat.mod_add_div n wordCount).symm⟩

/-- Remainders by a divisor of the number of words are those of the whole number. -/
theorem unsignedWord_mod {a : Nat} (dvd : a ∣ wordCount) (n : Nat) : unsignedWord n % a = n % a :=
  Nat.mod_mod_of_dvd n dvd

end VtableCloud
