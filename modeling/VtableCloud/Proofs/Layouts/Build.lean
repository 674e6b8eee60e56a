import VtableCloud.Proofs.Hierarchy.Monotone
import VtableCloud.Proofs.Layout.Containment
import VtableCloud.Proofs.Layout.Coverage

/-!
# Laying out all clouds

`Layouts.Built` is all that later results use of how layouts were made.

* `built_of_build`: what layouts built from a well formed hierarchy look like;
* `build_of_monotone`, `build_accepts_monotone`: a monotone hierarchy is laid out if its numbers
  fit, whichever strategy is asked for, and each of its tables passes every check.
-/

namespace VtableCloud

namespace Hierarchy

variable {h : Hierarchy} {options : LayoutOptions}

theorem WellFormed.layoutCheckedCloud_ok (wf : h.WellFormed) {name : String} {c : CloudLayout} :
    h.layoutCheckedCloud options name = .ok c ↔ h.layoutCloud options name = .ok c := by
  simp only [layoutCheckedCloud, bind_ok]
  constructor
  · rintro ⟨c', ok, -, -, eq⟩
    exact Except.ok.inj eq ▸ ok
  · intro ok
    obtain ⟨-, id, -, -, rfl, -⟩ := wf.layoutCloud_ok.mp ok
    exact ⟨_, ok, (), wf.checkDescendantRuns_arrangedCloud options id, rfl⟩

/-- The cloud of a root class of a monotone hierarchy is laid out just if its numbers fit. -/
theorem WellFormed.layoutCloud_of_monotone (wf : h.WellFormed) (mono : h.Monotone)
    (positive : 0 < options.wordWidth) {name : String} {c : CloudLayout} :
    h.layoutCloud options name = .ok c ↔
      ∃ id, h.rootId name = .ok id ∧ h.Fits options id ∧ c = h.arrangedCloud options id := by
  rw [wf.layoutCloud_ok, and_iff_right positive]
  refine exists_congr fun id => and_congr_right fun _ => and_congr_right fun fits => ?_
  refine and_iff_left_of_imp ?_
  rintro rfl
  exact wf.checkContainment_arrangedCloud mono fits

/-- The numbers of all clouds fit. -/
def AllFit (h : Hierarchy) (options : LayoutOptions) : Prop :=
  ∀ name ∈ h.roots, ∀ id, h.rootId name = .ok id → h.Fits options id

end Hierarchy

namespace Layouts

/-- The members of the cloud of a node. -/
abbrev members (l : Layouts) (id : NodeId) : List Member :=
  l.hierarchy.paddedMembers (l.hierarchy.cloudRoot id)

/-- The position of a slot of the member at a place of the cloud of a node. -/
abbrev place (l : Layouts) (id : NodeId) : Nat → Nat → Nat :=
  l.options.strategy.place (l.members id)

/-- The cloud of a node as it is arranged. -/
def arrangedCloud (l : Layouts) (id : NodeId) : CloudLayout :=
  l.hierarchy.arrangedCloud l.options (l.hierarchy.cloudRoot id)

/-- What layouts built from records look like. -/
structure Built (l : Layouts) : Prop where
  wf : l.hierarchy.WellFormed
  positive : 0 < l.options.wordWidth
  fits : ∀ id < l.hierarchy.size, l.hierarchy.Fits l.options (l.hierarchy.cloudRoot id)
  cloudOf : ∀ id < l.hierarchy.size, l.cloudOf id = .ok (l.arrangedCloud id)
  hosted : ∀ id < l.hierarchy.size, l.arrangedCloud id ∈ l.clouds
  contained : ∀ id < l.hierarchy.size,
    (l.arrangedCloud id).checkContainment l.hierarchy = .ok ()

variable {h : Hierarchy} {options : LayoutOptions} {l : Layouts}

theorem build_ok : build h options = .ok l ↔
    0 < options.wordWidth ∧ l.hierarchy = h ∧ l.options = options ∧
      h.roots.mapM (h.layoutCheckedCloud options) = .ok l.clouds := by
  simp only [build, bind_ok, LayoutOptions.check_ok]
  constructor
  · rintro ⟨_, ⟨positive, rfl⟩, clouds, ok, eq⟩
    obtain rfl := Except.ok.inj eq
    exact ⟨positive, rfl, rfl, ok⟩
  · rintro ⟨positive, rfl, rfl, ok⟩
    exact ⟨l.options, ⟨positive, rfl⟩, l.clouds, ok, rfl⟩

/-- Each layout is that of the root class it is named for. -/
theorem layout_of_mem (wf : h.WellFormed) {names : List String} {clouds : List CloudLayout}
    (laid : names.mapM (h.layoutCheckedCloud options) = .ok clouds) {c : CloudLayout}
    (hc : c ∈ clouds) : ∃ id, h.rootId c.root = .ok id ∧ h.Fits options id ∧
      c = h.arrangedCloud options id ∧ c.checkContainment h = .ok () := by
  obtain ⟨name, -, ok⟩ := mapM_ok_mem laid hc
  obtain ⟨-, id, root, fits, rfl, contained⟩ :=
    wf.layoutCloud_ok.mp (wf.layoutCheckedCloud_ok.mp ok)
  refine ⟨id, ?_, fits, rfl, contained⟩
  rw [Hierarchy.root_arrangedCloud, (wf.rootId_ok root).2]
  exact root

/-- There is one layout for each root class, in the order of the root classes. -/
theorem map_root_clouds (wf : h.WellFormed) {names : List String} {clouds : List CloudLayout}
    (laid : names.mapM (h.layoutCheckedCloud options) = .ok clouds) :
    clouds.map (·.root) = names := by
  refine (map_of_mapM_ok (k := id) laid fun name c ok => ?_).trans (List.map_id names)
  obtain ⟨-, id, root, -, rfl, -⟩ := wf.layoutCloud_ok.mp (wf.layoutCheckedCloud_ok.mp ok)
  rw [Hierarchy.root_arrangedCloud, (wf.rootId_ok root).2]
  rfl

/-- The layout of the root of a node's cloud is found by its name. -/
theorem cloud?_cloudRoot (wf : l.hierarchy.WellFormed)
    (laid : l.hierarchy.roots.mapM (l.hierarchy.layoutCheckedCloud l.options) = .ok l.clouds)
    {id : NodeId} (lt : id < l.hierarchy.size) :
    l.cloud? (l.hierarchy.key (l.hierarchy.cloudRoot id)).className =
      some (l.arrangedCloud id) := by
  obtain ⟨i, hi⟩ := List.mem_iff_getElem?.mp (wf.cloudRoot_mem_roots lt)
  obtain ⟨c, hc, checked⟩ := (mapM_ok laid).2 i _ hi
  obtain ⟨-, root, ok, -, rfl, -⟩ := wf.layoutCloud_ok.mp (wf.layoutCheckedCloud_ok.mp checked)
  obtain rfl := Except.ok.inj (ok.symm.trans (wf.rootId_cloudRoot lt))
  cases found : l.cloud? (l.hierarchy.key (l.hierarchy.cloudRoot id)).className with
  | none =>
    have := List.find?_eq_none.mp found _ (List.mem_of_getElem? hc)
    simp [Hierarchy.root_arrangedCloud] at this
  | some c' =>
    obtain ⟨root, ok', -, rfl, -⟩ := layout_of_mem wf laid (List.mem_of_find?_eq_some found)
    have same := List.find?_some found
    rw [beq_iff_eq.mp same] at ok'
    obtain rfl := Except.ok.inj (ok'.symm.trans ok)
    rfl

theorem built_of_build (wf : h.WellFormed) (ok : build h options = .ok l) :
    l.Built ∧ l.hierarchy = h ∧ l.options = options := by
  obtain ⟨positive, rfl, rfl, laid⟩ := build_ok.mp ok
  have hosted : ∀ id < l.hierarchy.size, l.arrangedCloud id ∈ l.clouds := fun id lt =>
    List.mem_of_find?_eq_some (cloud?_cloudRoot wf laid lt)
  refine ⟨⟨wf, positive, fun id lt => ?_, fun id lt => ?_, hosted, fun id lt => ?_⟩, rfl, rfl⟩
  · obtain ⟨root, ok, fits, -, -⟩ := layout_of_mem wf laid (hosted id lt)
    obtain rfl := Except.ok.inj (ok.symm.trans (wf.rootId_cloudRoot lt))
    exact fits
  · rw [Layouts.cloudOf, cloud?_cloudRoot wf laid lt]
  · obtain ⟨-, -, -, -, contained⟩ := layout_of_mem wf laid (hosted id lt)
    exact contained

/-- A monotone hierarchy is laid out, whichever strategy is asked for, just if its numbers fit. -/
theorem build_of_monotone (wf : h.WellFormed) (mono : h.Monotone)
    (positive : 0 < options.wordWidth) : (∃ l, build h options = .ok l) ↔ h.AllFit options := by
  constructor
  · rintro ⟨l, built⟩ name hr id found
    obtain ⟨-, -, -, laid⟩ := build_ok.mp built
    obtain ⟨i, hi⟩ := List.mem_iff_getElem?.mp hr
    obtain ⟨c, -, checked⟩ := (mapM_ok laid).2 i _ hi
    obtain ⟨-, root, ok, fits, -⟩ := wf.layoutCloud_ok.mp (wf.layoutCheckedCloud_ok.mp checked)
    obtain rfl := Except.ok.inj (ok.symm.trans found)
    exact fits
  · intro fits
    have each : ∀ name ∈ h.roots, h.layoutCheckedCloud options name =
        .ok ((h.layoutCheckedCloud options name).toOption.getD default) := by
      intro name hr
      obtain ⟨id, -, ok, -⟩ := wf.rootId_of_mem hr
      have laid := (wf.layoutCloud_of_monotone mono positive).mpr ⟨id, ok, fits name hr id ok, rfl⟩
      rw [wf.layoutCheckedCloud_ok.mpr laid]
      rfl
    exact ⟨⟨h, options, _⟩, build_ok.mpr ⟨positive, rfl, rfl, mapM_ok_of_forall each⟩⟩

end Layouts

/-- A hierarchy in which children keep the slots of their parents from the address points on
is only refused because its numbers do not fit. Whatever strategy arranges it and however much its
members have in front of their address points, the table of each of its clouds passes all three
checks. -/
theorem build_accepts_monotone {records : List ClassRecord} {h : Hierarchy}
    {options : LayoutOptions} (ingested : Hierarchy.ofRecords records = .ok h)
    (mono : h.Monotone) (positive : 0 < options.wordWidth) :
    ((∃ l, Layouts.build h options = .ok l) ↔ h.AllFit options) ∧
    ∀ l, Layouts.build h options = .ok l → l.clouds.map (·.root) = h.roots ∧
      ∀ c ∈ l.clouds, ∃ id, h.rootId c.root = .ok id ∧ c = h.arrangedCloud options id ∧
        checkStream c.root options.strategy (h.paddedMembers id) ⟨c.slots, c.alignment⟩ = .ok () ∧
        c.checkContainment h = .ok () ∧ c.checkDescendantRuns h = .ok () := by
  have wf := Hierarchy.wellFormed_of_ofRecords ingested
  refine ⟨Layouts.build_of_monotone wf mono positive, fun l built => ?_⟩
  obtain ⟨-, -, -, laid⟩ := Layouts.build_ok.mp built
  refine ⟨Layouts.map_root_clouds wf laid, ?_⟩
  intro c hc
  obtain ⟨id, root, fits, rfl, contained⟩ := Layouts.layout_of_mem wf laid hc
  have separate := wf.separate_paddedMembers fits
  exact ⟨id, root, rfl, checkStream_arrange separate _ fits.members.succeeds, contained,
    wf.checkDescendantRuns_arrangedCloud options id⟩

/-- `Left` has more slots in front of its address point than `Tip` below it, and the words of
this table are no power of two wide. -/
theorem diamond_accepted :
    (Diamond.hierarchy.node 3).addressOffset < (Diamond.hierarchy.node 1).addressOffset ∧
      ∃ l c, Layouts.build Diamond.hierarchy ⟨.interleaved, 3⟩ = .ok l ∧ l.clouds = [c] ∧
        c.root = "Base" ∧ c.checkContainment Diamond.hierarchy = .ok () ∧
        c.checkDescendantRuns Diamond.hierarchy = .ok () := by
  obtain ⟨laid, accepted⟩ := @build_accepts_monotone Diamond.records Diamond.hierarchy
    ⟨.interleaved, 3⟩ Diamond.ofRecords_records Diamond.monotone (by decide)
  have one : Diamond.hierarchy.roots = ["Base"] := by decide +kernel
  obtain ⟨l, built⟩ : ∃ l, Layouts.build Diamond.hierarchy ⟨.interleaved, 3⟩ = .ok l := by
    refine laid.mpr fun name hr id found => ?_
    obtain rfl := Diamond.eq_zero_of_rootId hr found
    decide +kernel
  obtain ⟨roots, checked⟩ := accepted l built
  rw [one] at roots
  obtain ⟨c, alone, root⟩ := List.map_eq_singleton_iff.mp roots
  obtain ⟨id, -, -, -, contained, covered⟩ := checked c (by simp [alone])
  exact ⟨by decide +kernel, l, c, built, alone, root, contained, covered⟩

/-- The padding of the leaf below a far base is no signed word, and the base has more slots than the
greatest power of two. So neither strategy lays the two out. -/
theorem deep_refused :
    Hierarchy.ofRecords Deep.records = .ok Deep.hierarchy ∧ Deep.hierarchy.Monotone ∧
    Layouts.build Deep.hierarchy ⟨.interleaved, 8⟩ = .error
      (.invariantViolation "Base" (.primary "Leaf") (.outside 0 9223372036854775807 0)) ∧
    Layouts.build Deep.hierarchy ⟨.ordered, 8⟩ = .error (.fault .zeroDivisor) :=
  ⟨Deep.ofRecords_records, Deep.monotone, by decide +kernel, by decide +kernel⟩

end VtableCloud
