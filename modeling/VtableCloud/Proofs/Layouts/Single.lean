import Mathlib.Data.List.Perm.Subperm
import VtableCloud.Proofs.Layouts.Precise
import VtableCloud.Proofs.Layouts.Table

/-!
# Single ranges

* `length_le_of_dvd`: multiples of a step between two bounds are no more than steps fit there;
* `Built.singleRange_eq`, `Built.singleRange_aligned`: so the span decides the width of a single
  range, and the number of descendants does not;
* `rangeFor_single_exact`: the range admits what is aligned between the outermost targets, and
  there stand only address points and filler.
-/

namespace VtableCloud

/-- Multiples of a step between two others are among the points one step apart. -/
theorem mem_groupPoints_of_dvd {step lowest steps p : Nat} (positive : 0 < step)
    (even : step ∣ lowest) (aligned : step ∣ p) (lo : lowest ≤ p)
    (hi : p ≤ lowest + steps * step) : p ∈ groupPoints step (lowest, steps + 1) := by
  obtain ⟨i, eq⟩ := Nat.dvd_sub aligned even
  refine List.mem_map.mpr ⟨i, List.mem_range.mpr (Nat.lt_succ_of_le ?_), ?_⟩
  · have le : step * i ≤ step * steps := by
      rw [← eq, Nat.mul_comm step]
      omega
    exact Nat.le_of_mul_le_mul_left le positive
  · show lowest + i * step = p
    rw [Nat.mul_comm, ← eq]
    omega

/-- Different multiples of a step between two others are no more than the points one step
apart. -/
theorem length_le_of_dvd {step lowest steps : Nat} {ps : List Nat} (positive : 0 < step)
    (even : step ∣ lowest) (once : ps.Nodup)
    (each : ∀ p ∈ ps, step ∣ p ∧ lowest ≤ p ∧ p ≤ lowest + steps * step) :
    ps.length ≤ steps + 1 := by
  have among : ps ⊆ groupPoints step (lowest, steps + 1) := fun p hp =>
    mem_groupPoints_of_dvd positive even (each p hp).1 (each p hp).2.1 (each p hp).2.2
  have le := (List.subperm_of_subset once among).length_le
  simpa [groupPoints] using le

/-- Numbers that are not none have a least and a greatest among them. -/
theorem exists_extremes {ps : List Nat} (some : ps ≠ []) :
    ∃ lowest highest, ps.min? = .some lowest ∧ ps.max? = .some highest ∧ lowest ∈ ps ∧
      highest ∈ ps ∧ ∀ p ∈ ps, lowest ≤ p ∧ p ≤ highest := by
  cases least : ps.min? with
  | none => exact absurd (List.min?_eq_none_iff.mp least) some
  | some lowest =>
    cases greatest : ps.max? with
    | none => exact absurd (List.max?_eq_none_iff.mp greatest) some
    | some highest =>
      obtain ⟨memLow, low⟩ := List.min?_eq_some_iff.mp least
      obtain ⟨memHigh, high⟩ := List.max?_eq_some_iff.mp greatest
      exact ⟨lowest, highest, rfl, rfl, memLow, memHigh, fun p hp => ⟨low p hp, high p hp⟩⟩

/-- Unless its width wraps around, a span in which the alignments outnumber the address points is
the range of as many address points one alignment apart. -/
theorem CloudLayout.spanRange_eq {c : CloudLayout} {lowest steps count : Nat}
    (le : count ≤ steps + 1) (width : (steps + 1) * (c.alignment * c.wordWidth) < wordCount) :
    c.spanRange lowest (lowest + steps * c.alignment) count =
      c.alignedRange lowest (steps + 1) := by
  have fewer := Nat.mul_le_mul_right (c.alignment * c.wordWidth) le
  have split : (steps + 1) * (c.alignment * c.wordWidth) =
      steps * (c.alignment * c.wordWidth) + c.alignment * c.wordWidth := Nat.succ_mul _ _
  have step : c.alignmentBytes = c.alignment * c.wordWidth := alignmentBytes_of_lt (by omega)
  have span : UInt64.ofNat ((lowest + steps * c.alignment - lowest) * c.wordWidth) +
      .ofNat c.alignmentBytes = .ofNat ((steps + 1) * c.alignmentBytes) := by
    rw [← UInt64.ofNat_add, Nat.add_sub_cancel_left, Nat.mul_assoc, step, split]
  have le : UInt64.ofNat (count * c.alignmentBytes) ≤
      .ofNat ((steps + 1) * c.alignmentBytes) := by
    rw [UInt64.le_iff_toNat_le, step, toNat_ofNat_of_lt (by omega), toNat_ofNat_of_lt width]
    exact fewer
  have widest : max (UInt64.ofNat (count * c.alignmentBytes))
      (.ofNat ((steps + 1) * c.alignmentBytes)) = .ofNat ((steps + 1) * c.alignmentBytes) :=
    if_pos le
  rw [spanRange, alignedRange, span, widest]

namespace Layouts

variable {l : Layouts} {id : NodeId}

namespace Built

/-- The single range of a node reaches from its lowest to its highest point in steps of the
alignment, and there are no more points than steps lead to. -/
theorem singleRange_eq (built : l.Built) (lt : id < l.hierarchy.size) (some : l.points id ≠ []) :
    ∃ lowest steps, lowest ∈ l.points id ∧
      lowest + steps * (l.arrangedCloud id).alignment ∈ l.points id ∧
      (∀ p ∈ l.points id, lowest ≤ p ∧ p ≤ lowest + steps * (l.arrangedCloud id).alignment) ∧
      l.hierarchy.cloudSize id ≤ steps + 1 ∧
      l.singleRange (l.arrangedCloud id) id = .ok [(l.arrangedCloud id).spanRange lowest
        (lowest + steps * (l.arrangedCloud id).alignment) (l.hierarchy.cloudSize id)] := by
  have inside : ∀ d ∈ l.hierarchy.preorder id,
      l.hierarchy.Descends (l.hierarchy.cloudRoot id) d := fun d hd =>
    (built.wf.descends_cloudRoot id).trans (Hierarchy.mem_preorder.mp hd)
  have computed := built.addressPointSlots lt inside
  have perm : (l.points id).Perm (((l.hierarchy.preorder id).filter (l.hierarchy.isDefined ·)).map
      ((l.arrangedCloud id).addressPoint l.hierarchy)) :=
    ((Hierarchy.perm_below (built.wf.descends_cloudRoot id)).filter _).map _
  generalize ((l.hierarchy.preorder id).filter (l.hierarchy.isDefined ·)).map
    ((l.arrangedCloud id).addressPoint l.hierarchy) = aps at computed perm
  have inhabited : aps ≠ [] := fun none => some (List.perm_nil.mp (none ▸ perm))
  obtain ⟨lowest, highest, hlow, hhigh, memLow, memHigh, extremes⟩ := exists_extremes inhabited
  have evenLow := built.dvd_of_mem_points lt (perm.mem_iff.mpr memLow)
  obtain ⟨steps, eq⟩ := Nat.dvd_sub (built.dvd_of_mem_points lt (perm.mem_iff.mpr memHigh)) evenLow
  obtain rfl : highest = lowest + steps * (l.arrangedCloud id).alignment := by
    have := (extremes highest memHigh).1
    rw [Nat.mul_comm, ← eq]
    omega
  have between : ∀ p ∈ l.points id, lowest ≤ p ∧
      p ≤ lowest + steps * (l.arrangedCloud id).alignment := fun p hp =>
    extremes p (perm.mem_iff.mp hp)
  refine ⟨lowest, steps, perm.mem_iff.mpr memLow, perm.mem_iff.mpr memHigh, between, ?_, ?_⟩
  · rw [← built.length_points]
    exact length_le_of_dvd (built.alignment_pos lt (perm.mem_iff.mpr memLow)) evenLow
      ((built.sorted_points lt).imp Nat.ne_of_lt) fun p hp =>
        ⟨built.dvd_of_mem_points lt hp, between p hp⟩
  · rw [singleRange, computed]
    simp only [bind, Except.bind, pure, Except.pure, hlow, hhigh, Option.getD_some]

/-- In a table that fits in the address space it is the range of the points one alignment apart. -/
theorem singleRange_aligned (built : l.Built) (fits : l.FitsAddressSpace)
    (lt : id < l.hierarchy.size) (some : l.points id ≠ []) :
    ∃ lowest steps, lowest ∈ l.points id ∧
      lowest + steps * (l.arrangedCloud id).alignment ∈ l.points id ∧
      (∀ p ∈ l.points id, lowest ≤ p ∧ p ≤ lowest + steps * (l.arrangedCloud id).alignment) ∧
      l.singleRange (l.arrangedCloud id) id =
        .ok [(l.arrangedCloud id).alignedRange lowest (steps + 1)] := by
  obtain ⟨lowest, steps, low, high, between, enough, single⟩ := built.singleRange_eq lt some
  have room := built.fits_of_mem_points fits lt high
  rw [CloudLayout.spanRange_eq enough (Nat.lt_of_le_of_lt (Nat.le_add_left _ _) room)] at single
  exact ⟨lowest, steps, low, high, between, single⟩

/-- What stands at the addresses of the single range of a node. -/
theorem slot_between (built : l.Built) (fits : l.FitsAddressSpace) (lt : id < l.hierarchy.size)
    {lowest highest p : Nat} (hl : lowest ∈ l.points id) (hh : highest ∈ l.points id)
    (aligned : (l.arrangedCloud id).alignment ∣ p) (lo : lowest ≤ p) (hi : p ≤ highest) :
    (∃ x ∈ (l.arrangedCloud id).preorder, l.hierarchy.isDefined x = true ∧
      (l.arrangedCloud id).addressPointPosition? l.hierarchy (l.hierarchy.key x) = some p ∧
      (l.arrangedCloud id).slots[p]? =
        some (.entry (l.hierarchy.key x) (l.hierarchy.node x).addressPoint)) ∨
    ((l.arrangedCloud id).slots[p]? = some .dummy ∧
      ∃ t, materialize l.hierarchy (l.arrangedCloud id) = .ok t ∧
        t.elements[p]? = some .null) := by
  have inside := built.fits id lt
  obtain ⟨x, hx, definedX, rfl⟩ := built.mem_points.mp hl
  obtain ⟨y, hy, definedY, rfl⟩ := built.mem_points.mp hh
  have up := built.wf.descends_cloudRoot id
  rcases built.wf.slot_between inside (up.trans hx) (up.trans hy) definedX definedY aligned lo hi
    with filler | ⟨d, path, defined, rfl⟩
  · exact Or.inr ⟨filler, built.wf.materialize_dummy inside built.positive
      (fits _ (built.hosted id lt)) filler⟩
  · refine Or.inl ⟨d, ?_, defined, built.addressPointPosition? path lt defined,
      built.wf.getElem?_addressPoint inside path defined⟩
    rw [arrangedCloud, Hierarchy.preorder_arrangedCloud]
    exact Hierarchy.mem_preorder.mpr path

end Built

end Layouts

/-- The single range of a key admits exactly what lies whole alignments above the lowest
target, up to the highest. At each such address stands the address point of a defined member
of the cloud, or filler. -/
theorem rangeFor_single_exact {records : List ClassRecord} {h : Hierarchy}
    {options : LayoutOptions} {l : Layouts} (ingested : Hierarchy.ofRecords records = .ok h)
    (laid : Layouts.build h options = .ok l) (fits : l.FitsAddressSpace) {key : SubVtableKey}
    {id d : NodeId} (found : h.find? key = some id) (path : h.Descends id d)
    (defined : h.isDefined d = true) :
    ∃ c lowest highest range, l.cloudOf id = .ok c ∧ l.Target key lowest ∧ l.Target key highest ∧
      (∀ p, l.Target key p → lowest ≤ p ∧ p ≤ highest) ∧
      l.rangeFor key .single = .ok (some [range]) ∧
      (∀ a : UInt64, range.admits a = true ↔ ∃ m, lowest + m * c.alignment ≤ highest ∧
        a.toNat = (lowest + m * c.alignment) * options.wordWidth) ∧
      ∀ a : UInt64, range.admits a = true → ∃ p, a.toNat = p * options.wordWidth ∧
        ((∃ x ∈ c.preorder, h.isDefined x = true ∧
            c.addressPointPosition? h (h.key x) = some p ∧
            c.slots[p]? = some (.entry (h.key x) (h.node x).addressPoint)) ∨
          (c.slots[p]? = some .dummy ∧
            ∃ t, materialize h c = .ok t ∧ t.elements[p]? = some .null)) := by
  obtain ⟨built, rfl, rfl⟩ :=
    Layouts.built_of_build (Hierarchy.wellFormed_of_ofRecords ingested) laid
  have lt := (built.wf.find?_eq_some.mp found).1
  have some : l.points id ≠ [] := List.ne_nil_of_mem (built.mem_points.mpr ⟨d, path, defined, rfl⟩)
  obtain ⟨lowest, steps, hl, hh, between, single⟩ := built.singleRange_aligned fits lt some
  have positive : 0 < (l.arrangedCloud id).alignment :=
    built.alignment_pos lt hl
  have admits : ∀ a : UInt64, ((l.arrangedCloud id).alignedRange lowest (steps + 1)).admits a =
      true ↔ ∃ m, lowest + m * (l.arrangedCloud id).alignment ≤
        lowest + steps * (l.arrangedCloud id).alignment ∧
        a.toNat = (lowest + m * (l.arrangedCloud id).alignment) * l.options.wordWidth := by
    intro a
    rw [CloudLayout.admits_alignedRange (built.step_pos lt hl)
      (built.fits_of_mem_points fits lt hh)]
    refine exists_congr fun m => and_congr_left fun _ => ?_
    rw [Nat.add_le_add_iff_left, Nat.mul_le_mul_right_iff positive, Nat.lt_succ_iff]
  refine ⟨_, lowest, _, _, built.cloudOf id lt, (built.target_iff found).mpr hl,
    (built.target_iff found).mpr hh, fun p hp => between p ((built.target_iff found).mp hp),
    ?_, admits, ?_⟩
  · rw [built.rangeFor_of_descends found path defined, single]
    rfl
  · intro a admitted
    obtain ⟨m, le, eq⟩ := (admits a).mp admitted
    have even := (Nat.dvd_add_right (built.dvd_of_mem_points lt hl)).mpr (Nat.dvd_mul_left _ m)
    exact ⟨_, eq, built.slot_between fits lt hl hh even (Nat.le_add_right _ _) le⟩

/-- A call through `Base` may go to any of the three defined classes. -/
theorem diamond_single_exact :
    ∃ l c range, Layouts.build Diamond.hierarchy ⟨.ordered, 8⟩ = .ok l ∧ l.cloudOf 0 = .ok c ∧
      l.rangeFor (.primary "Base") .single = .ok (some [range]) ∧
      ∀ a : UInt64, range.admits a = true → ∃ p, a.toNat = p * 8 ∧
        ((∃ x ∈ c.preorder, Diamond.hierarchy.isDefined x = true ∧
            c.addressPointPosition? Diamond.hierarchy (Diamond.hierarchy.key x) = some p ∧
            c.slots[p]? = some (.entry (Diamond.hierarchy.key x)
              (Diamond.hierarchy.node x).addressPoint)) ∨
          (c.slots[p]? = some .dummy ∧
            ∃ t, materialize Diamond.hierarchy c = .ok t ∧ t.elements[p]? = some .null)) := by
  obtain ⟨l, laid⟩ : ∃ l, Layouts.build Diamond.hierarchy ⟨.ordered, 8⟩ = .ok l := ⟨_, rfl⟩
  have fits : l.FitsAddressSpace := by
    obtain rfl := Except.ok.inj laid
    decide +kernel
  have found : Diamond.hierarchy.find? (.primary "Base") = some 0 := rfl
  obtain ⟨c, lowest, highest, range, host, -, -, -, single, -, between⟩ :=
    rangeFor_single_exact Diamond.ofRecords_records laid fits found (.refl 0) rfl
  exact ⟨l, c, range, laid, host, single, between⟩

end VtableCloud
