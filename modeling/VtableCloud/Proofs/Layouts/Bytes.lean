import VtableCloud.Proofs.Layouts.Queries

/-!
# Distances in bytes

A distance in bytes is translated word by word, where the width of a word takes part as a signed
word itself.

* `Layouts.TranslatesWords`: distances are translated in whole words of a width;
* `translatesWords_signedWord`: whatever the width, the words are those of its signed word;
* `translateBytes_words`: a width below the sign bit is respected, and a greater one is not.
-/

namespace VtableCloud

namespace Layouts

variable {l : Layouts}

/-- A distance in bytes that is no multiple of the word is refused, and of any other the words
are translated. -/
def TranslatesWords (l : Layouts) (word : Int) : Prop :=
  ∀ key bytes,
    (¬ word ∣ bytes →
      l.translateBytes key bytes = .error (.misaligned key bytes l.options.wordWidth)) ∧
    ∀ value, l.translateBytes key bytes = .ok value ↔
      word ∣ bytes ∧ word ∣ value ∧ l.translate key (bytes / word) true = .ok (value / word)

theorem translateBytes_of_not_dvd {key : SubVtableKey} {bytes : Int}
    (uneven : ¬ signedWord l.options.wordWidth ∣ bytes) :
    l.translateBytes key bytes = .error (.misaligned key bytes l.options.wordWidth) := by
  rw [Int.dvd_iff_tmod_eq_zero] at uneven
  exact if_pos uneven

theorem translateBytes_of_dvd {key : SubVtableKey} {bytes : Int}
    (even : signedWord l.options.wordWidth ∣ bytes) :
    l.translateBytes key bytes = (· * signedWord l.options.wordWidth) <$>
      l.translate key (bytes / signedWord l.options.wordWidth) true := by
  rw [← Int.tdiv_eq_ediv_of_dvd even]
  rw [Int.dvd_iff_tmod_eq_zero] at even
  exact if_neg (not_not_intro even)

theorem translatesWords_signedWord (nonzero : signedWord l.options.wordWidth ≠ 0) :
    l.TranslatesWords (signedWord l.options.wordWidth) := by
  intro key bytes
  by_cases even : signedWord l.options.wordWidth ∣ bytes
  · apply And.intro fun uneven => absurd even uneven
    intro value
    rw [translateBytes_of_dvd even, map_ok, and_iff_right even]
    constructor
    · rintro ⟨words, ok, rfl⟩
      rw [Int.mul_ediv_cancel _ nonzero]
      exact ⟨Int.dvd_mul_left _ _, ok⟩
    · rintro ⟨whole, ok⟩
      exact ⟨_, ok, Int.ediv_mul_cancel whole⟩
  · rw [translateBytes_of_not_dvd even]
    simp [even]

/-- A multiple of the signed word is not refused, though what it is translated to may be. -/
theorem Built.translateBytes_ne_misaligned (built : l.Built) {key : SubVtableKey} {bytes : Int}
    (even : signedWord l.options.wordWidth ∣ bytes) (key' : SubVtableKey) (bytes' : Int)
    (width : Nat) : l.translateBytes key bytes ≠ .error (.misaligned key' bytes' width) := by
  rw [translateBytes_of_dvd even]
  cases translated : l.translate key (bytes / signedWord l.options.wordWidth) true with
  | ok words => nofun
  | error e =>
    intro refused
    obtain rfl := Except.error.inj refused
    obtain ⟨-, other⟩ | ⟨_, -, -, other⟩ | ⟨_, _, -, -, -, other⟩ :=
      built.translate_error_iff.mp translated
    all_goals cases other

end Layouts

/-- Distances in bytes are translated in whole words of every width below 2^63. A word of 2^63
bytes or more is taken for a negative one, the signed word of the same bits. If it is wider than
2^63 bytes, some distance is no multiple of it and yet not refused. -/
theorem translateBytes_words {records : List ClassRecord} {h : Hierarchy}
    {options : LayoutOptions} {l : Layouts} (ingested : Hierarchy.ofRecords records = .ok h)
    (laid : Layouts.build h options = .ok l) (word : options.wordWidth < wordCount) :
    (options.wordWidth < signBit → l.TranslatesWords options.wordWidth) ∧
    (signBit ≤ options.wordWidth →
      l.TranslatesWords ((options.wordWidth : Int) - wordCount)) ∧
    (signBit < options.wordWidth → ∃ bytes, fitsSigned bytes = true ∧
      ¬ (options.wordWidth : Int) ∣ bytes ∧
      ∀ key, l.translateBytes key bytes ≠ .error (.misaligned key bytes options.wordWidth)) := by
  have wf := Hierarchy.wellFormed_of_ofRecords ingested
  obtain ⟨built, rfl, rfl⟩ := Layouts.built_of_build wf laid
  have positive := built.positive
  refine ⟨fun narrow => ?_, fun wide => ?_, fun wide => ?_⟩
  · rw [← signedWord_of_lt narrow]
    apply Layouts.translatesWords_signedWord
    rw [signedWord_of_lt narrow]
    omega
  · rw [← signedWord_of_le wide word]
    apply Layouts.translatesWords_signedWord
    rw [signedWord_of_le wide word]
    omega
  · -- The signed word itself, which is nearer to zero than the width.
    have negative := signedWord_of_le wide.le word
    refine ⟨signedWord l.options.wordWidth, ?_, ?_, fun key => ?_⟩
    · unfold fitsSigned
      rw [negative, decide_eq_true_eq]
      unfold signBit wordCount at *
      omega
    · intro even
      have nearer := Int.le_of_dvd (b := -signedWord l.options.wordWidth) (by omega)
        (Int.dvd_neg.mpr even)
      unfold signBit wordCount at *
      omega
    · exact built.translateBytes_ne_misaligned (Int.dvd_refl _) _ _ _

/-- Words of eight bytes are respected. -/
theorem diamond_words : ∃ l, Layouts.build Diamond.hierarchy ⟨.interleaved, 8⟩ = .ok l ∧
    l.TranslatesWords 8 := by
  obtain ⟨l, laid⟩ : ∃ l, Layouts.build Diamond.hierarchy ⟨.interleaved, 8⟩ = .ok l := ⟨_, rfl⟩
  have words := translateBytes_words Diamond.ofRecords_records laid (by decide)
  exact ⟨l, laid, words.1 (by decide)⟩

/-- A word of 2^64 - 1 bytes is taken for one of -1 bytes, and one byte for one word. -/
theorem diamond_wide_words :
    ∃ l, Layouts.build Diamond.hierarchy ⟨.interleaved, 18446744073709551615⟩ = .ok l ∧
      ¬ (18446744073709551615 : Int) ∣ -1 ∧
      l.translateBytes (.primary "Tip") (-1) = .ok (-2) ∧
      ¬ l.TranslatesWords 18446744073709551615 := by
  have uneven : ¬ (18446744073709551615 : Int) ∣ -1 := by decide
  obtain ⟨l, laid, translated⟩ : ∃ l,
      Layouts.build Diamond.hierarchy ⟨.interleaved, 18446744073709551615⟩ = .ok l ∧
        l.translateBytes (.primary "Tip") (-1) = .ok (-2) := ⟨_, rfl, rfl⟩
  refine ⟨l, laid, uneven, translated, fun words => ?_⟩
  have refused := (words (.primary "Tip") (-1)).1 uneven
  rw [translated] at refused
  cases refused

end VtableCloud
