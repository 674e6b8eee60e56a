import VtableCloud.Layouts.Index
import VtableCloud.Layouts.Range
import VtableCloud.Proofs.Layout.Renumbering
import VtableCloud.Proofs.Layouts.Build

/-!
# Questions about renumbered clouds

* `Layouts.Shares`: two layouts of hierarchies with a cloud in common;
* `Shares.translate`: offsets of the cloud are translated in the same way;
* `Shares.rangeFor`: calls into the cloud have the same valid addresses.
-/

namespace VtableCloud

/-- The runs of descendants are the same places of the cloud. -/
theorem Hierarchy.Embeds.descendantRuns {f : NodeId → NodeId} {h h' : Hierarchy}
    {root a : NodeId} (e : Embeds f h h' root) (wf : h.WellFormed) (wf' : h'.WellFormed)
    (path : h.Descends root a) :
    h'.descendantRuns (h'.preorder (f root)) (f a) = h.descendantRuns (h.preorder root) a := by
  rw [wf.descendantRuns_eq path, wf'.descendantRuns_eq (e.descends path), runsBelow, runsBelow,
    e.preorder path, e.preorder (.refl root), List.map_map]
  refine congrArg _ (List.map_congr_left fun x _ => ?_)
  rw [Function.comp_apply, Bool.eq_iff_iff, List.contains_iff_mem, List.contains_iff_mem,
    List.mem_map_of_injective e.injective]

namespace Layouts

/-- Two layouts of hierarchies of which one has a cloud of the other, numbered otherwise. -/
structure Shares (f : NodeId → NodeId) (l l' : Layouts) (root : NodeId) : Prop where
  built : l.Built
  built' : l'.Built
  options : l'.options = l.options
  embeds : Hierarchy.Embeds f l.hierarchy l'.hierarchy root
  lt : root < l.hierarchy.size
  lt' : f root < l'.hierarchy.size
  top : l.hierarchy.cloudRoot root = root
  top' : l'.hierarchy.cloudRoot (f root) = f root

namespace Shares

variable {f : NodeId → NodeId} {l l' : Layouts} {root a : NodeId} {key : SubVtableKey}

/-- The layout of the cloud. -/
abbrev cloud (_ : Shares f l l' root) : CloudLayout := l.hierarchy.arrangedCloud l.options root

theorem cloudOf (s : Shares f l l' root) (path : l.hierarchy.Descends root a) :
    l.cloudOf a = .ok s.cloud := by
  rw [s.built.cloudOf a (s.built.wf.lt_size_of_descends path s.lt), arrangedCloud,
    s.built.wf.cloudRoot_of_descends path, s.top]

theorem cloudOf' (s : Shares f l l' root) (path : l.hierarchy.Descends root a) :
    l'.cloudOf (f a) = .ok (s.cloud.renumber f) := by
  have path' := s.embeds.descends path
  rw [s.built'.cloudOf _ (s.built'.wf.lt_size_of_descends path' s.lt'), arrangedCloud,
    s.built'.wf.cloudRoot_of_descends path', s.top', s.options, s.embeds.arrangedCloud]

theorem find? (s : Shares f l l' root) (path : l.hierarchy.Descends root a)
    (found : l.hierarchy.find? key = some a) : l'.hierarchy.find? key = some (f a) := by
  have lt' := s.built'.wf.lt_size_of_descends (s.embeds.descends path) s.lt'
  obtain ⟨-, rfl⟩ := s.built.wf.find?_eq_some.mp found
  exact s.built'.wf.find?_eq_some.mpr ⟨lt', s.embeds.key path⟩

/-! ## Translation -/

theorem newIndices (s : Shares f l l' root) (path : l.hierarchy.Descends root a) :
    l'.newIndices (f a) = l.newIndices a := by
  rw [Layouts.newIndices, Layouts.newIndices, s.cloudOf path, s.cloudOf' path]
  simp only [bind, Except.bind]
  rw [s.embeds.key path, CloudLayout.placement?_renumber]
  cases s.cloud.placement? (l.hierarchy.key a) <;> rfl

theorem representative (s : Shares f l l' root) (path : l.hierarchy.Descends root a)
    (found : l.hierarchy.find? key = some a) :
    l'.representative key = (l.representative key).map f := by
  rw [Layouts.representative, Layouts.representative, Hierarchy.nodeId, Hierarchy.nodeId, found,
    s.find? path found]
  simp only [bind, Except.bind]
  rw [s.embeds.representative path]
  cases l.hierarchy.representative a <;> rfl

/-- Offsets of the cloud are translated in the same way. -/
theorem translate (s : Shares f l l' root) (path : l.hierarchy.Descends root a)
    (found : l.hierarchy.find? key = some a) (offset : Int) (relative : Bool) :
    l'.translate key offset relative = l.translate key offset relative := by
  rw [Layouts.translate, Layouts.translate, s.representative path found]
  cases represented : l.representative key with
  | error e => rfl
  | ok r =>
    have down : l.hierarchy.Descends a r := by
      rw [Layouts.representative, Hierarchy.nodeId, found] at represented
      exact (Hierarchy.representative_ok (mapError_ok.mp represented)).1
    simp only [Except.map, bind, Except.bind]
    rw [s.newIndices (path.trans down), s.embeds.addressOffset (path.trans down)]

/-! ## Ranges -/

theorem addressPointSlots (s : Shares f l l' root) {ids : List NodeId}
    (inside : ∀ id ∈ ids, l.hierarchy.Descends root id) :
    l'.addressPointSlots (s.cloud.renumber f) (ids.map f) = l.addressPointSlots s.cloud ids := by
  rw [Layouts.addressPointSlots, Layouts.addressPointSlots, s.embeds.filter_isDefined inside]
  refine mapM_map_congr fun id hid => ?_
  have path := inside id (List.mem_filter.mp hid).1
  rw [addressPointSlot, addressPointSlot, s.embeds.key path, ← s.embeds.arrangedCloud,
    s.embeds.addressPointPosition?, s.embeds.arrangedCloud]
  rfl

theorem singleRange (s : Shares f l l' root) (path : l.hierarchy.Descends root a) :
    l'.singleRange (s.cloud.renumber f) (f a) = l.singleRange s.cloud a := by
  have inside : ∀ id ∈ l.hierarchy.preorder a, l.hierarchy.Descends root id := fun id hid =>
    path.trans (Hierarchy.mem_preorder.mp hid)
  rw [Layouts.singleRange, Layouts.singleRange, s.embeds.preorder path,
    s.addressPointSlots inside, s.embeds.cloudSize path]
  rfl

theorem runRanges (s : Shares f l l' root) (r : Run) :
    l'.runRanges (s.cloud.renumber f) r = l.runRanges s.cloud r := by
  have inside : ∀ id ∈ (s.cloud.preorder.drop r.start).take r.length,
      l.hierarchy.Descends root id := by
    intro id hid
    have member := List.mem_of_mem_drop (List.mem_of_mem_take hid)
    rw [Hierarchy.preorder_arrangedCloud] at member
    exact Hierarchy.mem_preorder.mp member
  have slots := s.addressPointSlots inside
  rw [List.map_take, List.map_drop] at slots
  rw [Layouts.runRanges, Layouts.runRanges, ← slots]
  rfl

theorem preciseRanges (s : Shares f l l' root) (path : l.hierarchy.Descends root a) :
    l'.preciseRanges (s.cloud.renumber f) (f a) = l.preciseRanges s.cloud a := by
  have runs : l'.hierarchy.descendantRuns (s.cloud.renumber f).preorder (f a) =
      l.hierarchy.descendantRuns s.cloud.preorder a := by
    rw [← s.embeds.arrangedCloud, Hierarchy.preorder_arrangedCloud,
      Hierarchy.preorder_arrangedCloud]
    exact s.embeds.descendantRuns s.built.wf s.built'.wf path
  have each : l'.runRanges (s.cloud.renumber f) = l.runRanges s.cloud := funext s.runRanges
  rw [Layouts.preciseRanges, Layouts.preciseRanges, runs, each]

/-- Calls into the cloud have the same valid addresses. -/
theorem rangeFor (s : Shares f l l' root) (path : l.hierarchy.Descends root a)
    (found : l.hierarchy.find? key = some a) (precision : Precision) :
    l'.rangeFor key precision = l.rangeFor key precision := by
  rw [Layouts.rangeFor, Layouts.rangeFor, found, s.find? path found]
  simp only [s.embeds.representative path, s.cloudOf path, s.cloudOf' path, bind, Except.bind,
    s.singleRange path, s.preciseRanges path]
  cases l.hierarchy.representative a with
  | error e => rfl
  | ok r => rfl

end Shares

end Layouts

end VtableCloud
