import Mathlib.Logic.Relation
import VtableCloud.Proofs.Layout.Acceptance
import VtableCloud.Proofs.Layouts.Index

/-!
# Relative offsets of descendants

What a layout is checked for concerns the edges between defined sub-vtables. A descendant is
found behind several edges, and some of them may not have been checked.

* `Strategy.moved_iff`: when two members have a slot at the same distance from their address
  points;
* `Built.translate_eq_iff`: when two sub-vtables of a cloud translate an offset equally;
* `WellFormed.after_le_of_defined`, `Built.after_le_of_through`: what the check says of descent
  through defined classes;
* `descendants_translated`: when a descendant translates the offsets of a class as the class does.
-/

namespace VtableCloud

/-- A node stands between two others in the preorder of a cloud, whichever of them comes first. -/
def CloudLayout.Between (c : CloudLayout) (a x b : NodeId) : Prop :=
  x ∈ c.preorder ∧
    (c.preorder.idxOf a < c.preorder.idxOf x ∧ c.preorder.idxOf x < c.preorder.idxOf b ∨
      c.preorder.idxOf b < c.preorder.idxOf x ∧ c.preorder.idxOf x < c.preorder.idxOf a)

/-- Two members of a table that have a slot at a distance from their address points have it at
the same new distance, just if the table is ordered or all defined members between them have a
slot there too. -/
theorem Strategy.moved_iff (strategy : Strategy) {members : List Member} {k l : Nat}
    {m m' : Member} (hm : members[k]? = some m) (hm' : members[l]? = some m') {distance : Int}
    (here : m.reaches distance = true) (there : m'.reaches distance = true) :
    (strategy.place members k (m.before + distance).toNat : Int) -
        strategy.place members k m.before =
      strategy.place members l (m'.before + distance).toNat -
        strategy.place members l m'.before ↔
    (strategy = .interleaved → ∀ (j : Nat) (x : Member), (k < j ∧ j < l ∨ l < j ∧ j < k) →
      members[j]? = some x → x.node.isDefined = true → x.reaches distance = true) := by
  obtain ⟨-, lo, -⟩ := Member.reaches_iff.mp here
  obtain ⟨-, lo', -⟩ := Member.reaches_iff.mp there
  cases strategy with
  | ordered =>
    refine iff_of_true ?_ nofun
    rw [place_ordered members k (m.before + distance).toNat, place_ordered members k m.before,
      place_ordered members l (m'.before + distance).toNat, place_ordered members l m'.before]
    omega
  | interleaved =>
    simp only [forall_const]
    rcases Nat.le_total k l with le | le
    · refine Iff.trans eq_comm ((interleavedPlace_distance le hm hm' lo lo').trans ?_)
      constructor
      · intro each j x between hx defined
        exact each j x (by omega) (by omega) hx defined
      · intro each j x first last hx defined
        by_cases own : j = k
        · obtain rfl := Option.some.inj ((own ▸ hx).symm.trans hm)
          exact here
        · exact each j x (by omega) hx defined
    · refine (interleavedPlace_distance le hm' hm lo' lo).trans ?_
      constructor
      · intro each j x between hx defined
        exact each j x (by omega) (by omega) hx defined
      · intro each j x first last hx defined
        by_cases own : j = l
        · obtain rfl := Option.some.inj ((own ▸ hx).symm.trans hm')
          exact there
        · exact each j x (by omega) hx defined

namespace Hierarchy

variable {h : Hierarchy} {root : NodeId}

/-- `d` is `b` itself or inherits from it through defined classes only. -/
def DescendsThroughDefined (h : Hierarchy) : NodeId → NodeId → Prop :=
  Relation.ReflTransGen fun p c => c ∈ h.children p ∧ h.isDefined c = true

theorem DescendsThroughDefined.descends {b d : NodeId} (path : h.DescendsThroughDefined b d) :
    h.Descends b d := by
  induction path with
  | refl => exact .refl b
  | tail _ edge ih => exact ih.trans (descends_of_mem_children edge.1)

theorem idxOf_of_place {k : Nat} {id : NodeId} (hid : (h.preorder root)[k]? = some id) :
    (h.preorder root).idxOf id = k :=
  ((getElem?_preorder_iff (mem_preorder.mp (List.mem_of_getElem? hid))).mp hid).symm

/-- In an accepted cloud, a defined node that stands between a class and a later descendant of it
has no fewer slots after its address point than the class, if all classes on the way to the
descendant are defined. -/
theorem WellFormed.after_le_of_defined (wf : h.WellFormed) (contained : h.Contained root)
    (unbroken : h.Unbroken root) {p d : NodeId} (path : h.DescendsThroughDefined p d) :
    ∀ {i k : Nat}, (h.preorder root)[i]? = some p → (h.preorder root)[k]? = some d → i < k →
      h.isDefined p = true → ∀ (j : Nat) (x : NodeId), i < j → j ≤ k →
        (h.preorder root)[j]? = some x → h.isDefined x = true → h.after p ≤ h.after x := by
  induction path using Relation.ReflTransGen.head_induction_on with
  | refl =>
    intro i k hi hk lt
    have := place_unique (Digraph.nodup_preorder _ _) hi hk
    omega
  | @head p b edge rest ih =>
    intro i k hi hk lt here j x after until_ hx defined
    have down : b ∈ h.childGraph.succ p := succ_childGraph h p ▸ edge.1
    have member := Digraph.succ_mem_preorder (List.mem_of_getElem? hi) down
    obtain ⟨m, hm⟩ := List.mem_iff_getElem?.mp member
    -- The next class does not come before the class: it would lead back up to it.
    have next : i < m := by
      rcases Nat.lt_trichotomy i m with before | rfl | behind
      · exact before
      · obtain rfl : p = b := Option.some.inj (hi.symm.trans hm)
        exact absurd ⟨p, down, .refl p⟩ (wf.acyclic_childGraph p)
      · have back := Digraph.forward_of_reaches wf.acyclic_childGraph hm hk (by omega)
          (DescendsThroughDefined.descends rest) i (by omega) (by omega)
        exact absurd ⟨b, down, back.reaches hm hi⟩ (wf.acyclic_childGraph p)
    have later : h.LaterChild root i m p b := ⟨next, hi, hm, edge.1⟩
    have kept := contained i m p b later here edge.2
    rcases Nat.lt_trichotomy j m with before | rfl | behind
    · exact unbroken i m p b later here edge.2 j x after before hx defined
    · obtain rfl : b = x := Option.some.inj (hm.symm.trans hx)
      exact kept
    · exact Nat.le_trans kept (ih hm hk (by omega) edge.2 j x behind until_ hx defined)

end Hierarchy

namespace Layouts

variable {l : Layouts} {id id' a b : NodeId}

theorem mem_preorder_iff {x : NodeId} : x ∈ (l.arrangedCloud id).preorder ↔
    ∃ (j : Nat) (m : Member), (l.members id)[j]? = some m ∧ m.id = x := by
  rw [arrangedCloud, Hierarchy.preorder_arrangedCloud, List.mem_iff_getElem?]
  constructor
  · rintro ⟨j, hj⟩
    obtain ⟨m, hm, eq, -⟩ := Hierarchy.member_of_place hj
    exact ⟨j, m, hm, eq⟩
  · rintro ⟨j, m, hm, rfl⟩
    exact ⟨j, (Hierarchy.getElem?_members hm).1⟩

theorem idxOf_preorder {k : Nat} {m : Member} (hm : (l.members id)[k]? = some m) :
    (l.arrangedCloud id).preorder.idxOf m.id = k := by
  rw [arrangedCloud, Hierarchy.preorder_arrangedCloud]
  exact Hierarchy.idxOf_of_place (Hierarchy.getElem?_members hm).1

/-- What stands between two nodes of a cloud has its place between theirs. -/
theorem between_iff {i j k : Nat} {m x m' : Member} (hm : (l.members id)[i]? = some m)
    (hx : (l.members id)[j]? = some x) (hm' : (l.members id)[k]? = some m') :
    (l.arrangedCloud id).Between m.id x.id m'.id ↔ i < j ∧ j < k ∨ k < j ∧ j < i := by
  rw [CloudLayout.Between, idxOf_preorder hm, idxOf_preorder hx, idxOf_preorder hm']
  exact and_iff_right (mem_preorder_iff.mpr ⟨j, x, hx, rfl⟩)

namespace Built

/-- An offset that a key translates is one at which the node that stands for it has a slot. -/
theorem reaches_of_translate (built : l.Built) {key : SubVtableKey}
    (found : l.hierarchy.find? key = some id)
    {k : Nat} {m : Member} (represented : l.hierarchy.representative id = .ok m.id)
    (hm : (l.members m.id)[k]? = some m) {r t : Int} (translated : l.translate key r true = .ok t) :
    m.reaches r = true ∧
      t = (l.place m.id k (m.before + r).toNat : Int) - l.place m.id k m.before := by
  have here := (Hierarchy.representative_ok represented).2
  have before : m.before = m.node.addressOffset + m.pad := rfl
  rw [built.translate_relative found represented hm] at translated
  split at translated
  · cases translated
  · refine ⟨Member.reaches_iff.mpr ⟨?_, by omega, by omega⟩, (Except.ok.inj translated).symm⟩
    rw [Hierarchy.isDefined_of_getElem? hm]
    exact here

/-- Two keys of a cloud translate an offset equally, just if the table is ordered or all defined
sub-vtables between those that stand for the keys have a slot there. Here all of them have
enough slots before their address points. -/
theorem translate_eq_iff (built : l.Built) {key key' : SubVtableKey}
    (found : l.hierarchy.find? key = some id) (represented : l.hierarchy.representative id = .ok a)
    (found' : l.hierarchy.find? key' = some id')
    (represented' : l.hierarchy.representative id' = .ok b)
    (same : l.hierarchy.cloudRoot b = l.hierarchy.cloudRoot a) {r t t' : Int}
    (translated : l.translate key r true = .ok t) (translated' : l.translate key' r true = .ok t')
    (deep : ∀ (i : Nat) (x : Member), (l.members a)[i]? = some x →
      (l.arrangedCloud a).Between a x.id b → -(x.before : Int) ≤ r) :
    t = t' ↔ (l.options.strategy = .interleaved → ∀ x, (l.arrangedCloud a).Between a x b →
      l.hierarchy.isDefined x = true → r ≤ l.hierarchy.after x) := by
  obtain ⟨k, m, hm, rfl, -, -⟩ :=
    built.member_of_isDefined (Hierarchy.representative_ok represented).2
  obtain ⟨j, m', hm', rfl, -, -⟩ :=
    built.member_of_isDefined (Hierarchy.representative_ok represented').2
  obtain ⟨here, rfl⟩ := built.reaches_of_translate found represented hm translated
  obtain ⟨there, rfl⟩ := built.reaches_of_translate found' represented' hm' translated'
  rw [place, place, members, members, same]
  rw [members, same] at hm'
  refine (Strategy.moved_iff l.options.strategy hm hm' here there).trans ?_
  refine forall_congr' fun _ => ?_
  constructor
  · intro each x between defined
    obtain ⟨i, y, hy, rfl⟩ := mem_preorder_iff.mp between.1
    rw [← Hierarchy.isDefined_of_getElem? hy] at defined
    rw [← Hierarchy.after_of_getElem? hy]
    exact (Member.reaches_iff.mp (each i y ((between_iff hm hy hm').mp between) hy defined)).2.2
  · intro each i x order hx defined
    have between := (between_iff hm hx hm').mpr order
    have long := each x.id between (by rw [← Hierarchy.isDefined_of_getElem? hx]; exact defined)
    rw [← Hierarchy.after_of_getElem? hx] at long
    exact Member.reaches_iff.mpr ⟨defined, deep i x hx between, long⟩

/-- Interleaved tables have defined children keep the slots of their parents, and so does all
that stands between the two. -/
theorem unbroken (built : l.Built) (lt : id < l.hierarchy.size)
    (strategy : l.options.strategy = .interleaved) :
    l.hierarchy.Contained (l.hierarchy.cloudRoot id) ∧
      l.hierarchy.Unbroken (l.hierarchy.cloudRoot id) := by
  have root := built.wf.rootId_cloudRoot lt
  have contained := built.contained id lt
  have fits : l.hierarchy.Fits ⟨.interleaved, l.options.wordWidth⟩ (l.hierarchy.cloudRoot id) :=
    strategy ▸ built.fits id lt
  rw [← built.wf.accepts_interleaved built.positive root fits,
    built.wf.accepts_iff_contained built.positive root fits, ← strategy]
  exact contained

theorem exists_member (built : l.Built) {d : NodeId} (path : l.hierarchy.Descends id d) :
    ∃ (k : Nat) (m : Member), (l.members id)[k]? = some m ∧ m.id = d := by
  refine mem_preorder_iff.mp ?_
  rw [arrangedCloud, Hierarchy.preorder_arrangedCloud]
  exact Hierarchy.mem_preorder.mpr ((built.wf.descends_cloudRoot id).trans path)

/-- What stands between a class and a later descendant has no fewer slots before its address
point than the class. -/
theorem before_le_of_between (built : l.Built) {d : NodeId} {i j : Nat} {m x : Member}
    (hm : (l.members m.id)[i]? = some m) (hx : (l.members m.id)[j]? = some x)
    (path : l.hierarchy.Descends m.id d)
    (later : (l.arrangedCloud m.id).preorder.idxOf m.id < (l.arrangedCloud m.id).preorder.idxOf d)
    (between : (l.arrangedCloud m.id).Between m.id x.id d) : m.before ≤ x.before := by
  obtain ⟨k, m', hm', rfl⟩ := built.exists_member path
  rw [idxOf_preorder hm, idxOf_preorder hm'] at later
  have order := (between_iff hm hx hm').mp between
  have forward := Digraph.forward_of_reaches built.wf.acyclic_childGraph
    (Hierarchy.getElem?_members hm).1 (Hierarchy.getElem?_members hm').1 later path j
    (by omega) (by omega)
  exact Hierarchy.before_le_of_forward forward hm hx

/-- In an interleaved table it has no fewer after its address point either, if it is defined and
the descendant inherits through defined classes only. -/
theorem after_le_of_through (built : l.Built) (strategy : l.options.strategy = .interleaved)
    {p d x : NodeId} (here : l.hierarchy.isDefined p = true)
    (path : l.hierarchy.DescendsThroughDefined p d)
    (later : (l.arrangedCloud p).preorder.idxOf p < (l.arrangedCloud p).preorder.idxOf d)
    (between : (l.arrangedCloud p).Between p x d) (defined : l.hierarchy.isDefined x = true) :
    l.hierarchy.after p ≤ l.hierarchy.after x := by
  obtain ⟨contained, unbroken⟩ := built.unbroken (Hierarchy.lt_size_of_isDefined here) strategy
  obtain ⟨i, m, hm, rfl⟩ := built.exists_member (.refl p)
  obtain ⟨k, m', hm', rfl⟩ := built.exists_member path.descends
  obtain ⟨j, y, hy, rfl⟩ := mem_preorder_iff.mp between.1
  rw [idxOf_preorder hm, idxOf_preorder hm'] at later
  have order := (between_iff hm hy hm').mp between
  exact built.wf.after_le_of_defined contained unbroken path (Hierarchy.getElem?_members hm).1
    (Hierarchy.getElem?_members hm').1 later here j y.id (by omega) (by omega)
    (Hierarchy.getElem?_members hy).1 defined

end Built

end Layouts

/-- A later descendant of a defined class translates an offset that both have as the class does,
if the table is ordered. In an interleaved table it does so just if all defined classes that
stand between the two have a slot there. They do if the descendant inherits through defined
classes only; what it inherits through others is not checked. -/
theorem descendants_translated {records : List ClassRecord} {h : Hierarchy}
    {options : LayoutOptions} {l : Layouts} {c : CloudLayout} {p d : NodeId} {r t t' : Int}
    (ingested : Hierarchy.ofRecords records = .ok h) (laid : Layouts.build h options = .ok l)
    (here : h.isDefined p = true) (there : h.isDefined d = true) (path : h.Descends p d)
    (hosted : l.cloudOf p = .ok c) (later : c.preorder.idxOf p < c.preorder.idxOf d)
    (translated : l.translate (h.key p) r true = .ok t)
    (translated' : l.translate (h.key d) r true = .ok t') :
    (t = t' ↔ (options.strategy = .interleaved →
      ∀ x, c.Between p x d → h.isDefined x = true → r ≤ h.after x)) ∧
    (h.DescendsThroughDefined p d → t = t') := by
  obtain ⟨built, rfl, rfl⟩ := Layouts.built_of_build (Hierarchy.wellFormed_of_ofRecords ingested)
    laid
  have lt := Hierarchy.lt_size_of_isDefined here
  obtain rfl : l.arrangedCloud p = c := Except.ok.inj ((built.cloudOf p lt).symm.trans hosted)
  have found := built.wf.find?_key lt
  have found' := built.wf.find?_key (Hierarchy.lt_size_of_isDefined there)
  have represented := Hierarchy.representative_self here
  have represented' := Hierarchy.representative_self there
  have same : l.hierarchy.cloudRoot d = l.hierarchy.cloudRoot p :=
    built.wf.cloudRoot_of_descends path
  obtain ⟨i, m, hm, rfl, -, -⟩ := built.member_of_isDefined here
  obtain ⟨reaches, -⟩ := built.reaches_of_translate found represented hm translated
  obtain ⟨-, lo, hi⟩ := Member.reaches_iff.mp reaches
  rw [Hierarchy.after_of_getElem? hm] at hi
  have equal := built.translate_eq_iff found represented found' represented' same translated
    translated' fun j x hx between => by
      have fewer := built.before_le_of_between hm hx path later between
      omega
  refine ⟨equal, fun through => equal.mpr fun strategy x between defined => ?_⟩
  have kept := built.after_le_of_through strategy here through later between defined
  omega

namespace Bypassed

/-- A class with a child and a grandchild, and with a second child that is emitted elsewhere,
where it lacks a slot of the class. Of the two classes below that child, the later has the slot
again. -/
def records : List ClassRecord := [
  ⟨"Base", [⟨0, .empty, 0, 1, 0, []⟩], [.null, .null], true⟩,
  ⟨"Heir", [⟨0, .ofList [.primary "Base"], 0, 1, 0, []⟩], [.null, .null], true⟩,
  ⟨"Issue", [⟨0, .ofList [.primary "Heir"], 0, 1, 0, []⟩], [.null, .null], true⟩,
  ⟨"Mid", [⟨0, .ofList [.primary "Base"], 0, 0, 0, []⟩], [], false⟩,
  ⟨"Leaf", [⟨0, .ofList [.primary "Mid"], 0, 0, 0, []⟩], [.null], true⟩,
  ⟨"Side", [⟨0, .ofList [.primary "Mid"], 0, 1, 0, []⟩], [.null, .null], true⟩]

def hierarchy : Hierarchy := (Hierarchy.ofRecords records).toOption.getD .empty

def layouts : Layouts := (Layouts.build hierarchy ⟨.interleaved, 8⟩).toOption.getD default

theorem ofRecords_records : Hierarchy.ofRecords records = .ok hierarchy := by rfl

theorem build_hierarchy : Layouts.build hierarchy ⟨.interleaved, 8⟩ = .ok layouts := by rfl

end Bypassed

/-- The grandchild agrees with the class. -/
theorem bypassed_translated : ∃ c t t', Bypassed.hierarchy.key 0 = .primary "Base" ∧
    Bypassed.hierarchy.key 2 = .primary "Issue" ∧
    Bypassed.hierarchy.DescendsThroughDefined 0 2 ∧ Bypassed.layouts.cloudOf 0 = .ok c ∧
    c.preorder.idxOf 0 < c.preorder.idxOf 2 ∧
    Bypassed.layouts.translate (Bypassed.hierarchy.key 0) 1 true = .ok t ∧
    Bypassed.layouts.translate (Bypassed.hierarchy.key 2) 1 true = .ok t' ∧ t = t' := by
  have child : 1 ∈ Bypassed.hierarchy.children 0 ∧ Bypassed.hierarchy.isDefined 1 = true := by
    decide +kernel
  have grandchild : 2 ∈ Bypassed.hierarchy.children 1 ∧ Bypassed.hierarchy.isDefined 2 = true := by
    decide +kernel
  have through : Bypassed.hierarchy.DescendsThroughDefined 0 2 := .tail (.single child) grandchild
  have above : Bypassed.layouts.translate (Bypassed.hierarchy.key 0) 1 true = .ok 5 := rfl
  have below : Bypassed.layouts.translate (Bypassed.hierarchy.key 2) 1 true = .ok 5 := rfl
  obtain ⟨-, checked⟩ := descendants_translated Bypassed.ofRecords_records
    Bypassed.build_hierarchy (by decide +kernel) grandchild.2 through.descends rfl
    (by decide +kernel) above below
  exact ⟨_, _, _, rfl, rfl, through, rfl, by decide +kernel, above, below, checked through⟩

/-- The class below the other child does not: the class before it has no slot there. -/
theorem bypassed_differs : ∃ c, Hierarchy.ofRecords Bypassed.records = .ok Bypassed.hierarchy ∧
    Layouts.build Bypassed.hierarchy ⟨.interleaved, 8⟩ = .ok Bypassed.layouts ∧
    Bypassed.hierarchy.isDefined 0 = true ∧ Bypassed.hierarchy.isDefined 5 = true ∧
    Bypassed.hierarchy.Descends 0 5 ∧ Bypassed.layouts.cloudOf 0 = .ok c ∧
    c.preorder.idxOf 0 < c.preorder.idxOf 5 ∧
    Bypassed.layouts.translate (Bypassed.hierarchy.key 0) 1 true = .ok 5 ∧
    Bypassed.layouts.translate (Bypassed.hierarchy.key 5) 1 true = .ok 4 := by
  have path : Bypassed.hierarchy.Descends 0 5 := Hierarchy.mem_preorder.mp (by decide +kernel)
  exact ⟨_, Bypassed.ofRecords_records, Bypassed.build_hierarchy, by decide +kernel,
    by decide +kernel, path, rfl, by decide +kernel, rfl, rfl⟩

end VtableCloud
