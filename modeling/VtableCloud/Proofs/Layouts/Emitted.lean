import VtableCloud.Proofs.Layouts.Single
import VtableCloud.Proofs.Range.Rotation

/-!
# The emitted checks of a hierarchy

* `exists_alignment_eq`: the alignment of a table is a power of two slots;
* `Built.mem_rangeFor`: whatever precision is asked for, a range holds address points that lie
  one alignment apart;
* `rangeFor_rotated_agrees_iff`: the check emitted for a range agrees with the specified one just
  if the range has one slot or words are a power of two wide.
-/

namespace VtableCloud

/-- The alignment of a table is a power of two slots, unless it is 0. -/
theorem exists_alignment_eq (strategy : Strategy) (members : List Member)
    (positive : 0 < (strategy.arrange members).alignment) :
    ∃ s, (strategy.arrange members).alignment = 2 ^ s := by
  cases strategy with
  | ordered =>
    obtain ⟨s, power⟩ := exists_leastPowerOfTwo ((members.map Member.size).foldl max 1)
    exact ⟨s, (nextPowerOfTwo_of_le (nextPowerOfTwo_pos_iff.mp positive)).trans power⟩
  | interleaved => exact ⟨0, rfl⟩

namespace CloudLayout

variable {c : CloudLayout} {first count : Nat}

theorem toNat_alignment_alignedRange (some : 0 < count)
    (fits : first * c.wordWidth + count * (c.alignment * c.wordWidth) < wordCount) :
    (c.alignedRange first count).alignment.toNat = c.alignment * c.wordWidth := by
  have step : c.alignment * c.wordWidth ≤ count * (c.alignment * c.wordWidth) :=
    Nat.le_mul_of_pos_left _ some
  rw [alignedRange, alignmentBytes_of_lt (by omega)]
  exact toNat_ofNat_of_lt (by omega)

theorem sound_alignedRange (positive : 0 < c.alignment * c.wordWidth) (some : 0 < count)
    (fits : first * c.wordWidth + count * (c.alignment * c.wordWidth) < wordCount) :
    (c.alignedRange first count).Sound := by
  have step : c.alignment * c.wordWidth ≤ count * (c.alignment * c.wordWidth) :=
    Nat.le_mul_of_pos_left _ some
  have start : (c.alignedRange first count).start.toNat = first * c.wordWidth :=
    toNat_ofNat_of_lt (by omega)
  have width : (c.alignedRange first count).width.toNat =
      count * (c.alignment * c.wordWidth) := by
    rw [alignedRange, alignmentBytes_of_lt (by omega)]
    exact toNat_ofNat_of_lt (by omega)
  have alignment := toNat_alignment_alignedRange some fits
  constructor
  · rwa [alignment]
  · rw [width, alignment]
    exact Nat.dvd_mul_left _ _
  · rw [width]
    exact Nat.mul_pos some positive
  · rw [start, width]
    exact Nat.le_of_lt fits

end CloudLayout

namespace Layouts.Built

variable {l : Layouts}

/-- Whatever precision is asked for, a range holds address points that lie one alignment apart,
and does not reach past the end of the address space. -/
theorem mem_rangeFor (built : l.Built) (fits : l.FitsAddressSpace) {key : SubVtableKey}
    {precision : Precision} {set : RangeSet} (ranges : l.rangeFor key precision = .ok (some set))
    {r : RangeTuple} (hr : r ∈ set) :
    ∃ id first count, 0 < (l.arrangedCloud id).alignment ∧ 0 < count ∧
      r = (l.arrangedCloud id).alignedRange first count ∧
      first * (l.arrangedCloud id).wordWidth +
        count * ((l.arrangedCloud id).alignment * (l.arrangedCloud id).wordWidth) < wordCount := by
  by_cases below : ∃ id d, l.hierarchy.find? key = some id ∧ l.hierarchy.Descends id d ∧
      l.hierarchy.isDefined d = true
  · obtain ⟨id, d, found, path, defined⟩ := below
    have lt := (built.wf.find?_eq_some.mp found).1
    rw [built.rangeFor_of_descends found path defined] at ranges
    cases precision with
    | single =>
      have some : l.points id ≠ [] :=
        List.ne_nil_of_mem (built.mem_points.mpr ⟨d, path, defined, rfl⟩)
      obtain ⟨lowest, steps, -, highest, -, single⟩ := built.singleRange_aligned fits lt some
      simp only [single] at ranges
      obtain rfl := Option.some.inj (Except.ok.inj ranges)
      exact ⟨id, lowest, steps + 1, built.alignment_pos lt highest, Nat.succ_pos steps,
        List.mem_singleton.mp hr, built.fits_of_mem_points fits lt highest⟩
    | precise =>
      simp only [built.preciseRanges_eq lt] at ranges
      obtain rfl := Option.some.inj (Except.ok.inj ranges)
      obtain ⟨g, hg, rfl⟩ := List.mem_map.mp (List.mem_mergeSort.mp hr)
      obtain ⟨steps, -, last⟩ := built.exists_of_mem_groups hg
      exact ⟨id, g.1, g.2, built.alignment_pos lt last, pos_of_mem_groups hg, rfl,
        built.fits_of_mem_groups fits lt hg⟩
  · rw [rangeFor_eq_none] at ranges
    · cases ranges
    · intro id found d path
      rw [Bool.eq_false_iff]
      intro defined
      exact below ⟨id, d, found, path, defined⟩

end Layouts.Built

/-- The check emitted for a range agrees with the specified one on every address just if the
range has one slot or words are a power of two wide. -/
theorem rangeFor_rotated_agrees_iff {records : List ClassRecord} {h : Hierarchy}
    {options : LayoutOptions} {l : Layouts} (ingested : Hierarchy.ofRecords records = .ok h)
    (laid : Layouts.build h options = .ok l) (fits : l.FitsAddressSpace) {key : SubVtableKey}
    {precision : Precision} {set : RangeSet} (ranges : l.rangeFor key precision = .ok (some set))
    {r : RangeTuple} (hr : r ∈ set) :
    (∀ a, r.admitsRotated a = r.admits a) ↔
      r.slots.toNat = 1 ∨ ∃ t, options.wordWidth = 2 ^ t := by
  obtain ⟨built, rfl, rfl⟩ :=
    Layouts.built_of_build (Hierarchy.wellFormed_of_ofRecords ingested) laid
  obtain ⟨id, first, count, positive, some, rfl, within⟩ := built.mem_rangeFor fits ranges hr
  have sound := CloudLayout.sound_alignedRange (Nat.mul_pos positive built.positive) some within
  obtain ⟨s, slots⟩ : ∃ s, (l.arrangedCloud id).alignment = 2 ^ s :=
    exists_alignment_eq _ _ positive
  have bytes : ((l.arrangedCloud id).alignedRange first count).alignment.toNat =
      2 ^ s * l.options.wordWidth := by
    rw [CloudLayout.toNat_alignment_alignedRange some within, slots]
    rfl
  rw [sound.rotated_agrees_iff, bytes]
  refine or_congr_right ⟨?_, ?_⟩
  · rintro ⟨t, eq⟩
    obtain ⟨k, -, pow⟩ := (Nat.dvd_prime_pow Nat.prime_two).mp (eq ▸ Nat.dvd_mul_left _ (2 ^ s))
    exact ⟨k, pow⟩
  · rintro ⟨t, eq⟩
    exact ⟨s + t, by rw [eq, Nat.pow_add]⟩

/-- With words of eight bytes the emitted checks of the diamond agree with the specified ones. -/
theorem diamond_rotated_agrees :
    ∃ l set, Layouts.build Diamond.hierarchy ⟨.ordered, 8⟩ = .ok l ∧
      l.rangeFor (.primary "Base") .precise = .ok (some set) ∧
      ∀ r ∈ set, ∀ a, r.admitsRotated a = r.admits a := by
  obtain ⟨l, laid⟩ : ∃ l, Layouts.build Diamond.hierarchy ⟨.ordered, 8⟩ = .ok l := ⟨_, rfl⟩
  obtain ⟨set, ranges⟩ : ∃ set, l.rangeFor (.primary "Base") .precise = .ok (some set) := by
    obtain rfl := Except.ok.inj laid
    exact ⟨_, rfl⟩
  have fits : l.FitsAddressSpace := by
    obtain rfl := Except.ok.inj laid
    decide +kernel
  refine ⟨l, set, laid, ranges, fun r hr => ?_⟩
  exact (rangeFor_rotated_agrees_iff Diamond.ofRecords_records laid fits ranges hr).mpr
    (Or.inr ⟨3, rfl⟩)

/-- With words of three bytes an interleaved table is accepted and has a range whose emitted
check admits an address inside of a word, which the specified one rejects. -/
theorem diamond_rotated_disagrees :
    ∃ l set r, Layouts.build Diamond.hierarchy ⟨.interleaved, 3⟩ = .ok l ∧ l.FitsAddressSpace ∧
      l.rangeFor (.primary "Base") .single = .ok (some set) ∧ r ∈ set ∧
      r.admits 22 = false ∧ r.admitsRotated 22 = true := by
  obtain ⟨l, laid⟩ : ∃ l, Layouts.build Diamond.hierarchy ⟨.interleaved, 3⟩ = .ok l := ⟨_, rfl⟩
  refine ⟨l, [⟨21, 9, 3⟩], ⟨21, 9, 3⟩, laid, ?_, ?_, List.mem_singleton.mpr rfl, rfl, rfl⟩
  · obtain rfl := Except.ok.inj laid
    decide +kernel
  · obtain rfl := Except.ok.inj laid
    decide +kernel

end VtableCloud
