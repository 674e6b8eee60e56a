import VtableCloud.Proofs.Hierarchy.Upcast
import VtableCloud.Proofs.Layouts.Precise

/-!
# Calls whose receiver is known more closely

* `Built.point_of_admits`: a precise range holds no word but those of the points below its node,
  even if words wrap around;
* `Built.admits_of_point`: it holds all of these if its words do not;
* `Built.rangeFor_precise`: the precise ranges of a key, and the words that they admit;
* `rangeForSite_narrows`: the ranges of a call site stay below its static class, and follow a
  unique upcast to the sub-vtable where it lands.
-/

namespace VtableCloud

namespace Layouts

variable {l : Layouts} {id : NodeId}

/-- The width of no precise range of a node wraps around. -/
def RangesFit (l : Layouts) (id : NodeId) : Prop :=
  ∀ g ∈ l.groups id,
    g.2 * ((l.arrangedCloud id).alignment * (l.arrangedCloud id).wordWidth) < wordCount

/-- A defined node has its address point at a position of its table. -/
def PointAt (l : Layouts) (d : NodeId) (p : Nat) : Prop :=
  l.hierarchy.isDefined d = true ∧ ∃ c, l.cloudOf d = .ok c ∧
    c.addressPointPosition? l.hierarchy (l.hierarchy.key d) = some p

/-- A defined node has its address point at a byte offset of its table. -/
def AddressAt (l : Layouts) (d : NodeId) (a : UInt64) : Prop :=
  l.hierarchy.isDefined d = true ∧ ∃ c, l.cloudOf d = .ok c ∧
    c.addressPointOffset? l.hierarchy (l.hierarchy.key d) = some a.toNat

namespace Built

variable {set : RangeSet}

theorem rangesFit (built : l.Built) (fits : l.FitsAddressSpace) (lt : id < l.hierarchy.size) :
    l.RangesFit id := by
  intro g hg
  have within := built.fits_of_mem_groups fits lt hg
  omega

theorem mem_preciseRanges (built : l.Built) (lt : id < l.hierarchy.size)
    (ok : l.preciseRanges (l.arrangedCloud id) id = .ok set) {r : RangeTuple} :
    r ∈ set ↔ ∃ g ∈ l.groups id, l.groupRange id g = r := by
  rw [built.preciseRanges_eq lt] at ok
  rw [← Except.ok.inj ok, List.mem_mergeSort, List.mem_map]

/-- The precise ranges of a node admit no word but those of the points below it. -/
theorem point_of_admits (built : l.Built) (lt : id < l.hierarchy.size)
    (ok : l.preciseRanges (l.arrangedCloud id) id = .ok set) {a : UInt64}
    (admitted : set.admits a = true) :
    ∃ p ∈ l.points id, a = .ofNat (p * l.options.wordWidth) := by
  obtain ⟨r, hr, admitted⟩ := List.any_eq_true.mp admitted
  obtain ⟨g, hg, rfl⟩ := (built.mem_preciseRanges lt ok).mp hr
  obtain ⟨i, within, rfl⟩ := CloudLayout.exists_of_admits_alignedRange admitted
  refine ⟨_, ?_, rfl⟩
  rw [← built.points_groups]
  exact List.mem_flatMap.mpr ⟨g, hg, List.mem_map.mpr ⟨i, List.mem_range.mpr within, rfl⟩⟩

/-- Unless their widths wrap around, the precise ranges of a node admit all points below it that
are words. -/
theorem admits_of_point (built : l.Built) (lt : id < l.hierarchy.size)
    (ok : l.preciseRanges (l.arrangedCloud id) id = .ok set) (fit : l.RangesFit id) {p : Nat}
    (hp : p ∈ l.points id) (inside : p * l.options.wordWidth < wordCount) :
    set.admits (.ofNat (p * l.options.wordWidth)) = true := by
  rw [← built.points_groups] at hp
  obtain ⟨g, hg, hp⟩ := List.mem_flatMap.mp hp
  obtain ⟨i, within, rfl⟩ := List.mem_map.mp hp
  obtain ⟨steps, -, last⟩ := built.exists_of_mem_groups hg
  have start : g.1 * l.options.wordWidth ≤
      (g.1 + i * (l.arrangedCloud id).alignment) * l.options.wordWidth :=
    Nat.mul_le_mul_right _ (Nat.le_add_right _ _)
  refine List.any_eq_true.mpr ⟨_, (built.mem_preciseRanges lt ok).mpr ⟨g, hg, rfl⟩, ?_⟩
  exact CloudLayout.admits_alignedRange_of_lt (built.step_pos lt last)
    (Nat.lt_of_le_of_lt start inside) (fit g hg) (List.mem_range.mp within) inside

theorem pointAt_of_descends (built : l.Built) (lt : id < l.hierarchy.size) {d : NodeId}
    (path : l.hierarchy.Descends id d) (defined : l.hierarchy.isDefined d = true) :
    l.PointAt d ((l.arrangedCloud id).addressPoint l.hierarchy d) :=
  ⟨defined, _, built.cloudOf_of_descends lt path,
    built.addressPointPosition? ((built.wf.descends_cloudRoot id).trans path) lt defined⟩

theorem addressAt_of_descends (built : l.Built) (lt : id < l.hierarchy.size) {d : NodeId}
    (path : l.hierarchy.Descends id d) (defined : l.hierarchy.isDefined d = true) :
    l.AddressAt d (.ofNat ((l.arrangedCloud id).addressPoint l.hierarchy d *
      l.options.wordWidth)) := by
  refine ⟨defined, _, built.cloudOf_of_descends lt path, ?_⟩
  rw [built.addressPointOffset?_of_descends lt path defined, UInt64.toNat_ofNat']
  rfl

/-- In tables that fit in the address space the byte offsets of address points are words. -/
theorem lt_of_pointAt (built : l.Built) (fits : l.FitsAddressSpace) {d : NodeId} {p : Nat}
    (point : l.PointAt d p) : p * l.options.wordWidth < wordCount := by
  obtain ⟨defined, c, host, position⟩ := point
  have lt := Hierarchy.lt_size_of_isDefined defined
  obtain ⟨-, c', host', position'⟩ := built.pointAt_of_descends lt (.refl d) defined
  obtain rfl := Except.ok.inj (host.symm.trans host')
  rw [Option.some.inj (position.symm.trans position')]
  exact built.bytes_lt fits lt (built.mem_points.mpr ⟨d, .refl d, defined, rfl⟩)

/-- The precise ranges of a key can be computed. They admit the byte offsets of the address points
of the defined descendants of the key, and no other words. -/
theorem rangeFor_precise (built : l.Built) (key : SubVtableKey) :
    ∃ ranges, l.rangeFor key .precise = .ok ranges ∧
      (∀ set, ranges = some set → ∃ id, l.hierarchy.find? key = some id ∧
        ∀ a : UInt64, set.admits a = true → ∃ d, l.hierarchy.Descends id d ∧ l.AddressAt d a) ∧
      ∀ id d, l.hierarchy.find? key = some id → l.hierarchy.Descends id d →
        l.hierarchy.isDefined d = true → ∃ set ap, ranges = some set ∧ l.PointAt d ap ∧
          (l.RangesFit id → ap * l.options.wordWidth < wordCount →
            set.admits (.ofNat (ap * l.options.wordWidth)) = true) := by
  obtain ⟨id, d, found, path, defined⟩ | undefined := l.defined_below_or_none key
  · have lt := (built.wf.find?_eq_some.mp found).1
    have ok := built.preciseRanges_eq lt
    refine ⟨_, by rw [built.rangeFor_of_descends found path defined, ok]; rfl, ?_, ?_⟩
    · intro set same
      obtain rfl := Option.some.inj same
      refine ⟨id, found, fun a admitted => ?_⟩
      obtain ⟨p, hp, rfl⟩ := built.point_of_admits lt ok admitted
      obtain ⟨d, path, defined, rfl⟩ := built.mem_points.mp hp
      exact ⟨d, path, built.addressAt_of_descends lt path defined⟩
    · intro id' d found' path defined
      obtain rfl := Option.some.inj (found.symm.trans found')
      refine ⟨_, _, rfl, built.pointAt_of_descends lt path defined, fun fit inside => ?_⟩
      exact built.admits_of_point lt ok fit (built.mem_points.mpr ⟨d, path, defined, rfl⟩) inside
  · refine ⟨none, ?_, nofun, ?_⟩
    · exact rangeFor_eq_none l .precise undefined
    · intro id d found path defined
      exact absurd defined (by simp [undefined id found d path])

/-- The ranges of a call site are those of the sub-vtable where a unique upcast lands, or those of
the static class. Either one is below the static class. -/
theorem rangeForSite_eq (built : l.Built) (s p : String) :
    ∃ key, l.rangeForSite s p = l.rangeFor key .precise ∧
      (∀ i, l.hierarchy.upcast p s = .unique i → key = ⟨p, i⟩) ∧
      ∀ d, l.hierarchy.find? key = some d →
        ∃ b, l.hierarchy.find? (.primary s) = some b ∧ l.hierarchy.Descends b d := by
  rw [rangeForSite]
  cases lands : l.hierarchy.upcast p s with
  | unique i =>
    refine ⟨⟨p, i⟩, rfl, fun j same => ?_, fun d found => ?_⟩
    · rw [UpcastPath.unique.inj same]
    · obtain ⟨b, d', static, found', path⟩ := (built.wf.upcast_eq_unique_iff.mp lands).1
      obtain rfl := Option.some.inj (found.symm.trans found')
      exact ⟨b, static, path⟩
  | ambiguous => exact ⟨.primary s, rfl, nofun, fun d found => ⟨d, found, .refl d⟩⟩
  | unrelated => exact ⟨.primary s, rfl, nofun, fun d found => ⟨d, found, .refl d⟩⟩

end Built

end Layouts

/-- An upcast is unique, ambiguous or fails as the sub-vtables of the class do or do not descend
from the base. The ranges of a call site can be computed, and admit only address points of
defined sub-vtables below the static class, in the table of its cloud. If the upcast is unique,
these are below the sub-vtable where it lands, and all of those at a word are admitted, unless the
width of a range wraps around. -/
theorem rangeForSite_narrows {records : List ClassRecord} {h : Hierarchy}
    {options : LayoutOptions} {l : Layouts} (ingested : Hierarchy.ofRecords records = .ok h)
    (laid : Layouts.build h options = .ok l) (s p : String) :
    (∀ i, h.upcast p s = .unique i ↔
      h.Inherits (.primary s) ⟨p, i⟩ ∧ ∀ j, h.Inherits (.primary s) ⟨p, j⟩ → j = i) ∧
    (h.upcast p s = .ambiguous ↔
      ∃ i j, i ≠ j ∧ h.Inherits (.primary s) ⟨p, i⟩ ∧ h.Inherits (.primary s) ⟨p, j⟩) ∧
    (h.upcast p s = .unrelated ↔ ∀ i, ¬ h.Inherits (.primary s) ⟨p, i⟩) ∧
    ∃ ranges, l.rangeForSite s p = .ok ranges ∧
      (∀ set, ranges = some set → ∃ b c, h.find? (.primary s) = some b ∧ l.cloudOf b = .ok c ∧
        ∀ a : UInt64, set.admits a = true → ∃ d, h.Descends b d ∧ h.isDefined d = true ∧
          c.addressPointOffset? h (h.key d) = some a.toNat ∧
          ∀ i, h.upcast p s = .unique i → h.Inherits ⟨p, i⟩ (h.key d)) ∧
      ∀ i id d, h.upcast p s = .unique i → h.find? ⟨p, i⟩ = some id → h.Descends id d →
        h.isDefined d = true → ∃ set ap, ranges = some set ∧ l.PointAt d ap ∧
          (l.RangesFit id → ap * options.wordWidth < wordCount →
            set.admits (.ofNat (ap * options.wordWidth)) = true) := by
  obtain ⟨built, rfl, rfl⟩ :=
    Layouts.built_of_build (Hierarchy.wellFormed_of_ofRecords ingested) laid
  have wf := built.wf
  obtain ⟨key, site, lands, static⟩ := built.rangeForSite_eq s p
  obtain ⟨ranges, ok, sound, complete⟩ := built.rangeFor_precise key
  refine ⟨fun i => wf.upcast_eq_unique_iff, wf.upcast_eq_ambiguous_iff,
    wf.upcast_eq_unrelated_iff, ranges, site.trans ok, ?_, ?_⟩
  · intro set same
    obtain ⟨id, found, admits⟩ := sound set same
    obtain ⟨b, found', up⟩ := static id found
    have lt := (wf.find?_eq_some.mp found').1
    refine ⟨b, _, found', built.cloudOf b lt, fun a admitted => ?_⟩
    obtain ⟨d, path, defined, c, host, offset⟩ := admits a admitted
    obtain rfl := Except.ok.inj ((built.cloudOf_of_descends lt (up.trans path)).symm.trans host)
    refine ⟨d, up.trans path, defined, offset, fun i unique => ?_⟩
    obtain rfl := lands i unique
    exact ⟨id, d, found, wf.find?_key (Hierarchy.lt_size_of_isDefined defined), path⟩
  · intro i id d unique found path defined
    obtain rfl := lands i unique
    exact complete id d found path defined

/-- A drawing is a store through its second sub-vtable, which is not in the cloud of its first. A
call through a store that is known to be a drawing goes there. -/
theorem drawing_narrows : ∃ h l set, Hierarchy.ofRecords Drawing.records = .ok h ∧
    Layouts.build h ⟨.ordered, 8⟩ = .ok l ∧ h.upcast "Drawing" "Store" = .unique 1 ∧
    h.cloudRoot 0 ≠ h.cloudRoot 1 ∧ l.rangeForSite "Store" "Drawing" = .ok (some set) ∧
    (∀ a : UInt64, set.admits a = true → ∃ d, h.Inherits ⟨"Drawing", 1⟩ (h.key d)) ∧
    ∃ ap, l.PointAt 1 ap ∧ set.admits (.ofNat (ap * 8)) = true := by
  obtain ⟨h, ingested⟩ : ∃ h, Hierarchy.ofRecords Drawing.records = .ok h := ⟨_, rfl⟩
  obtain ⟨l, laid⟩ : ∃ l, Layouts.build h ⟨.ordered, 8⟩ = .ok l := by
    cases ingested
    exact ⟨_, rfl⟩
  have unique : h.upcast "Drawing" "Store" = .unique 1 := by
    cases ingested
    decide +kernel
  have found : h.find? ⟨"Drawing", 1⟩ = some 1 := by
    cases ingested
    decide +kernel
  have defined : h.isDefined 1 = true := by
    cases ingested
    decide +kernel
  have apart : h.cloudRoot 0 ≠ h.cloudRoot 1 := by
    cases ingested
    decide +kernel
  have fits : l.FitsAddressSpace := by
    cases ingested
    cases laid
    decide +kernel
  obtain ⟨built, rfl, options⟩ :=
    Layouts.built_of_build (Hierarchy.wellFormed_of_ofRecords ingested) laid
  obtain ⟨-, -, -, ranges, ok, sound, complete⟩ :=
    rangeForSite_narrows ingested laid "Store" "Drawing"
  obtain ⟨set, ap, rfl, point, admitted⟩ := complete 1 1 1 unique found (.refl 1) defined
  obtain ⟨b, c, -, -, admits⟩ := sound set rfl
  have inside := built.lt_of_pointAt fits point
  rw [options] at inside
  refine ⟨l.hierarchy, l, set, ingested, laid, unique, apart, ok, fun a here => ?_, ap, point, ?_⟩
  · obtain ⟨d, -, -, -, below⟩ := admits a here
    exact ⟨d, below 1 unique⟩
  · exact admitted (built.rangesFit fits (Hierarchy.lt_size_of_isDefined defined)) inside

/-- Where words wrap around, targets are missed. With words of `2 ^ 61` bytes the address point
of `Tip` in the interleaved diamond is at the last address and one more. And the one target of
this base is missed, since it is aligned to as many bytes as there are words. -/
theorem wide_targets_missed :
    (∃ l c set, Layouts.build Diamond.hierarchy ⟨.interleaved, 2305843009213693952⟩ = .ok l ∧
      Diamond.hierarchy.upcast "Base" "Base" = .unique 0 ∧
      Diamond.hierarchy.Descends 0 3 ∧ Diamond.hierarchy.isDefined 3 = true ∧
      l.rangeForSite "Base" "Base" = .ok (some set) ∧ l.cloudOf 3 = .ok c ∧
      c.addressPointOffset? Diamond.hierarchy (Diamond.hierarchy.key 3) = some 0 ∧
      set.admits 0 = false) ∧
    ∃ h l c set, Hierarchy.ofRecords (Wide.records 9223372036854775807) = .ok h ∧
      Layouts.build h ⟨.ordered, 8⟩ = .ok l ∧ h.upcast "Base" "Base" = .unique 0 ∧
      h.isDefined 0 = true ∧ l.rangeForSite "Base" "Base" = .ok (some set) ∧
      l.cloudOf 0 = .ok c ∧ c.addressPointOffset? h (h.key 0) = some 0 ∧ set.admits 0 = false := by
  constructor
  · exact ⟨_, _, _, rfl, by decide +kernel, Hierarchy.mem_preorder.mp (by decide +kernel),
      by decide +kernel, rfl, rfl, by decide +kernel, by decide +kernel⟩
  · exact ⟨_, _, _, _, rfl, rfl, by decide +kernel, by decide +kernel, rfl, rfl,
      by decide +kernel, by decide +kernel⟩

end VtableCloud
