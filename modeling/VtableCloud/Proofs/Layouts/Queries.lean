import VtableCloud.Proofs.Layout.Lookups
import VtableCloud.Proofs.Layouts.CallSite
import VtableCloud.Proofs.Layouts.Single
import VtableCloud.Proofs.Layouts.Slots
import VtableCloud.Proofs.Range.Lookups

/-!
# Questions that layouts answer

* `CloudLayout.Found`: a layout in which every lookup finds what it looks for;
* `Built.rangeFor_ok`, `Built.rangeForSite_ok`, `Built.runtimeTable_ok`: ranges can always be
  computed;
* `Built.rangeFor_eq_some`, `Built.runtimeEntries_of_descends`: there are some if something defined
  descends from the sub-vtable;
* `Built.translate_error_iff`: what makes a translation fail lies in the question;
* `queries_answered`: layouts that have been built answer every question.
-/

namespace VtableCloud

/-- Every lookup in a layout finds what it looks for: the places of all children, the position
of every slot in its placement, the position of every address point, the positions compared along
an edge, the runs of all children and the places of all descendants. And every run is a slice of
the preorder. -/
structure CloudLayout.Found (c : CloudLayout) (h : Hierarchy) : Prop where
  edges : h.forwardEdges? c.preorder = some (h.forwardEdges c.preorder)
  placements : h.placements? c.preorder (h.prePadding c.preorder) c.slots = some c.placements
  points : ∀ key, c.pointLookup? h key = some (c.addressPointPosition? h key)
  contained : c.containmentLookup? h = some none
  runs : h.preorderRuns? c.preorder = some (h.preorderRuns c.preorder)
  covered : c.coverageLookup? h (h.preorderRuns c.preorder) = some none
  slices : ∀ id ∈ c.preorder, ∀ r ∈ h.descendantRuns c.preorder id,
    r.start < r.stop ∧ r.stop ≤ c.preorder.length

/-- A node has a slot at an offset that counts from its address point or from its start. -/
def Node.HasSlot (n : Node) (offset : Int) (relative : Bool) : Prop :=
  let index := if relative then (n.addressOffset : Int) + offset else offset
  0 ≤ index ∧ index < n.width

theorem Hierarchy.WellFormed.found_arrangedCloud {h : Hierarchy} (wf : h.WellFormed)
    {root : NodeId} {options : LayoutOptions} (fits : h.Fits options root)
    (contained : (h.arrangedCloud options root).checkContainment h = .ok ()) :
    (h.arrangedCloud options root).Found h where
  edges := by rw [preorder_arrangedCloud, wf.forwardEdges?_eq fits.lt]
  placements := by rw [preorder_arrangedCloud, wf.placements?_eq fits]
  points := wf.pointLookup?_eq fits
  contained := wf.containmentLookup?_eq_none fits contained
  runs := by rw [preorder_arrangedCloud, wf.preorderRuns?_eq fits.lt]
  covered := by rw [preorder_arrangedCloud, wf.coverageLookup?_eq_none fits.lt]
  slices id hid r hr := by
    rw [preorder_arrangedCloud] at hid hr ⊢
    exact wf.bounds_descendantRuns (mem_preorder.mp hid) hr

namespace Layouts.Built

variable {l : Layouts} {id : NodeId}

/-- The single range of a key is one range, if something defined descends from its node. -/
theorem rangeFor_single (built : l.Built) {key : SubVtableKey} {d : NodeId}
    (found : l.hierarchy.find? key = some id) (path : l.hierarchy.Descends id d)
    (defined : l.hierarchy.isDefined d = true) :
    ∃ range, l.rangeFor key .single = .ok (some [range]) := by
  have lt := (built.wf.find?_eq_some.mp found).1
  have point := built.mem_points.mpr ⟨d, path, defined, rfl⟩
  obtain ⟨lowest, steps, -, -, -, -, ok⟩ := built.singleRange_eq lt (List.ne_nil_of_mem point)
  rw [built.rangeFor_of_descends found path defined]
  exact ⟨_, congrArg (some <$> ·) ok⟩

/-- A key has ranges just if something defined descends from its node. -/
theorem rangeFor_eq_some (built : l.Built) {key : SubVtableKey}
    (found : l.hierarchy.find? key = some id) (precision : Precision) :
    (∃ set, l.rangeFor key precision = .ok (some set)) ↔
      ∃ d, l.hierarchy.Descends id d ∧ l.hierarchy.isDefined d = true := by
  obtain below | undefined := l.hierarchy.defined_below_or_none id
  · apply iff_of_true _ below
    obtain ⟨d, path, defined⟩ := below
    cases precision with
    | single =>
      obtain ⟨range, ok⟩ := built.rangeFor_single found path defined
      exact ⟨[range], ok⟩
    | precise =>
      have lt := (built.wf.find?_eq_some.mp found).1
      rw [built.rangeFor_of_descends found path defined]
      exact ⟨_, congrArg (some <$> ·) (built.preciseRanges_eq lt)⟩
  · have none : l.rangeFor key precision = .ok .none := by
      apply rangeFor_eq_none
      intro id' found'
      rw [found, Option.some.injEq] at found'
      exact found' ▸ undefined
    simpa [none] using undefined

theorem rangeFor_ok (built : l.Built) (key : SubVtableKey) (precision : Precision) :
    ∃ ranges, l.rangeFor key precision = .ok ranges := by
  obtain ⟨id, d, found, path, defined⟩ | undefined := l.defined_below_or_none key
  · obtain ⟨set, ok⟩ := (built.rangeFor_eq_some found precision).mpr ⟨d, path, defined⟩
    exact ⟨some set, ok⟩
  · exact ⟨none, rangeFor_eq_none l precision undefined⟩

theorem rangeForSite_ok (built : l.Built) (s p : String) :
    ∃ ranges, l.rangeForSite s p = .ok ranges := by
  obtain ⟨key, site, -⟩ := built.rangeForSite_eq s p
  rw [site]
  exact built.rangeFor_ok key .precise

/-- A class has one entry, with its single range, if something defined descends from its primary
sub-vtable. -/
theorem runtimeEntries_of_descends (built : l.Built) {record : ClassRecord} {d : NodeId}
    (found : l.hierarchy.find? (record.key 0) = some id) (path : l.hierarchy.Descends id d)
    (defined : l.hierarchy.isDefined d = true) :
    ∃ range, l.rangeFor (record.key 0) .single = .ok (some [range]) ∧
      l.runtimeEntries record = .ok [⟨record.name, (l.arrangedCloud id).tableName, range⟩] := by
  obtain ⟨range, ok⟩ := built.rangeFor_single found path defined
  have lt := (built.wf.find?_eq_some.mp found).1
  have known : l.hierarchy.nodeId (record.key 0) = .ok id := by rw [Hierarchy.nodeId, found]
  refine ⟨range, ok, ?_⟩
  simp only [runtimeEntries, ok, known, bind, Except.bind, Except.mapError, built.cloudOf id lt]
  rfl

theorem runtimeEntries_eq_nil {record : ClassRecord}
    (none : ∀ id, l.hierarchy.find? (record.key 0) = some id → ∀ d, l.hierarchy.Descends id d →
      l.hierarchy.isDefined d = false) : l.runtimeEntries record = .ok [] := by
  rw [runtimeEntries, rangeFor_eq_none l .single none]
  rfl

theorem runtimeTable_ok (built : l.Built) : ∃ table, l.runtimeTable = .ok table := by
  have each : ∀ record ∈ l.hierarchy.records, ∃ entries, l.runtimeEntries record = .ok entries := by
    intro record _
    obtain ⟨id, d, found, path, defined⟩ | none := l.defined_below_or_none (record.key 0)
    · obtain ⟨range, -, ok⟩ := built.runtimeEntries_of_descends found path defined
      exact ⟨_, ok⟩
    · exact ⟨[], runtimeEntries_eq_nil none⟩
  obtain ⟨entries, ok⟩ := mapM_ok_of_exists each
  exact ⟨entries.flatten, by rw [runtimeTable, ok]; rfl⟩

/-- A key that is not known is not translated. -/
theorem translate_unknown {key : SubVtableKey} (unknown : l.hierarchy.find? key = none)
    (offset : Int) (relative : Bool) :
    l.translate key offset relative = .error (.hierarchy (.unknownKey key)) := by
  rw [translate, representative, Hierarchy.nodeId, unknown]
  rfl

/-- A key that nothing defined descends from is not translated. -/
theorem translate_undefined (built : l.Built) {key : SubVtableKey}
    (found : l.hierarchy.find? key = some id)
    (none : ∀ d, l.hierarchy.Descends id d → l.hierarchy.isDefined d = false)
    (offset : Int) (relative : Bool) :
    l.translate key offset relative = .error (.hierarchy (.noDefinedDescendant key)) := by
  have stands : l.representative key = .error (.hierarchy (.noDefinedDescendant key)) := by
    rw [representative, Hierarchy.nodeId, found]
    simp only [bind, Except.bind, Hierarchy.representative_eq_error none,
      (built.wf.find?_eq_some.mp found).2]
    rfl
  rw [translate, stands]
  rfl

/-- A key is translated at just those offsets where the node that stands for it has a slot. -/
theorem translate_represented (built : l.Built) {key : SubVtableKey} {r : NodeId}
    (found : l.hierarchy.find? key = some id) (represented : l.hierarchy.representative id = .ok r)
    {offset : Int} {relative : Bool} {e : LayoutError} :
    l.translate key offset relative = .error e ↔
      ¬ (l.hierarchy.node r).HasSlot offset relative ∧
        e = .indexOutOfRange key offset (l.hierarchy.node r).width := by
  have stands := representative_of_find? found represented
  obtain ⟨indices, positions, length, -⟩ :=
    built.exists_newIndices (Hierarchy.representative_ok represented).2
  simp only [translate, stands, positions, bind, Except.bind, length, Node.HasSlot]
  generalize (if relative = true then ((l.hierarchy.node r).addressOffset : Int) + offset
    else offset) = index
  by_cases outside : index < 0 ∨ ((l.hierarchy.node r).width : Int) ≤ index
  · rw [if_pos outside, Except.error.injEq]
    constructor
    · rintro rfl
      exact ⟨by omega, rfl⟩
    · rintro ⟨-, rfl⟩
      rfl
  · rw [if_neg outside]
    constructor
    · intro ok
      cases ok
    · rintro ⟨missing, -⟩
      omega

/-- A translation fails only for a key that is not known, a key that nothing defined descends
from, and an offset at which the node that stands for the key has no slot. -/
theorem translate_error_iff (built : l.Built) {key : SubVtableKey} {offset : Int}
    {relative : Bool} {e : LayoutError} :
    l.translate key offset relative = .error e ↔
      (l.hierarchy.find? key = none ∧ e = .hierarchy (.unknownKey key)) ∨
      (∃ id, l.hierarchy.find? key = some id ∧
        (∀ d, l.hierarchy.Descends id d → l.hierarchy.isDefined d = false) ∧
        e = .hierarchy (.noDefinedDescendant key)) ∨
      ∃ id r, l.hierarchy.find? key = some id ∧ l.hierarchy.representative id = .ok r ∧
        ¬ (l.hierarchy.node r).HasSlot offset relative ∧
        e = .indexOutOfRange key offset (l.hierarchy.node r).width := by
  constructor
  · intro failed
    cases found : l.hierarchy.find? key with
    | none =>
      rw [translate_unknown found] at failed
      exact .inl ⟨rfl, (Except.error.inj failed).symm⟩
    | some id =>
      refine .inr ?_
      obtain ⟨d, path, defined⟩ | none := l.hierarchy.defined_below_or_none id
      · obtain ⟨r, represented, -⟩ := Hierarchy.representative_of_descends path defined
        obtain ⟨missing, eq⟩ := (built.translate_represented found represented).mp failed
        exact .inr ⟨id, r, rfl, represented, missing, eq⟩
      · rw [built.translate_undefined found none] at failed
        exact .inl ⟨id, rfl, none, (Except.error.inj failed).symm⟩
  · rintro (⟨unknown, rfl⟩ | ⟨id, found, none, rfl⟩ | ⟨id, r, found, represented, missing, rfl⟩)
    · exact translate_unknown unknown offset relative
    · exact built.translate_undefined found none offset relative
    · exact (built.translate_represented found represented).mpr ⟨missing, rfl⟩

end Layouts.Built

/-- Layouts that have been built answer every question. Each node has a layout, the ranges of
every key and of every call site and the runtime table can be computed, and a translation fails
just if the key is not known, if nothing defined descends from it, or if the node that stands
for it has no slot at the offset. All lookups made to lay out and check a cloud, and to read
positions and runs from it afterwards, find what they look for. -/
theorem queries_answered {records : List ClassRecord} {h : Hierarchy} {options : LayoutOptions}
    {l : Layouts} (ingested : Hierarchy.ofRecords records = .ok h)
    (laid : Layouts.build h options = .ok l) :
    (∀ id < h.size, ∃ c ∈ l.clouds, l.cloudOf id = .ok c) ∧
    (∀ key precision, ∃ ranges, l.rangeFor key precision = .ok ranges) ∧
    (∀ s p, ∃ ranges, l.rangeForSite s p = .ok ranges) ∧
    (∃ table, l.runtimeTable = .ok table) ∧
    (∀ key offset relative e, l.translate key offset relative = .error e ↔
      (h.find? key = none ∧ e = .hierarchy (.unknownKey key)) ∨
      (∃ id, h.find? key = some id ∧ (∀ d, h.Descends id d → h.isDefined d = false) ∧
        e = .hierarchy (.noDefinedDescendant key)) ∨
      ∃ id r, h.find? key = some id ∧ h.representative id = .ok r ∧
        ¬ (h.node r).HasSlot offset relative ∧
        e = .indexOutOfRange key offset (h.node r).width) ∧
    (∀ id, h.isDefined id = true → ∃ indices, l.newIndices id = .ok indices ∧
      indices.length = (h.node id).width ∧ (h.node id).addressOffset < indices.length) ∧
    ∀ c ∈ l.clouds, c.Found h := by
  have wf := Hierarchy.wellFormed_of_ofRecords ingested
  obtain ⟨built, rfl, rfl⟩ := Layouts.built_of_build wf laid
  refine ⟨fun id lt => ⟨_, built.hosted id lt, built.cloudOf id lt⟩, built.rangeFor_ok,
    built.rangeForSite_ok, built.runtimeTable_ok, fun _ _ _ _ => built.translate_error_iff,
    fun id defined => built.exists_newIndices defined, fun c hc => ?_⟩
  obtain ⟨id, lt, rfl⟩ := Layouts.arrangedCloud_of_mem wf laid hc
  exact wf.found_arrangedCloud (built.fits id lt) (built.contained id lt)

/-- `Tip` has five slots, so that an offset from its start may be at most four. -/
theorem diamond_answered : ∃ l c, Layouts.build Diamond.hierarchy ⟨.ordered, 8⟩ = .ok l ∧
    l.cloudOf 3 = .ok c ∧ c.Found Diamond.hierarchy ∧ (∃ table, l.runtimeTable = .ok table) ∧
    (∃ ranges, l.rangeForSite "Left" "Tip" = .ok ranges) ∧
    l.translate (.primary "Tip") 5 false = .error (.indexOutOfRange (.primary "Tip") 5 5) := by
  obtain ⟨l, laid⟩ : ∃ l, Layouts.build Diamond.hierarchy ⟨.ordered, 8⟩ = .ok l := ⟨_, rfl⟩
  obtain ⟨hosts, -, sites, table, fails, -, found⟩ :=
    queries_answered Diamond.ofRecords_records laid
  obtain ⟨c, hc, hosted⟩ := hosts 3 (by decide +kernel)
  refine ⟨l, c, laid, hosted, found c hc, table, sites "Left" "Tip", ?_⟩
  refine (fails _ _ _ _).mpr (.inr (.inr ⟨3, 3, by decide +kernel, by decide +kernel, ?_, ?_⟩))
  · rintro ⟨-, less⟩
    exact absurd less (by decide +kernel)
  · exact congrArg (LayoutError.indexOutOfRange (.primary "Tip") 5) (by decide +kernel)

end VtableCloud
