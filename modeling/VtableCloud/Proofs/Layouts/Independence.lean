import VtableCloud.Proofs.Hierarchy.Unrelated
import VtableCloud.Proofs.Layouts.Renumbering

/-!
# Independence of clouds

A class more moves the numbers of all nodes after its own, in whichever clouds these lie. No
table depends on them.

* `Hierarchy.Hosts`: the keys of a root class's cloud;
* `CloudLayout.SameByKey`: layouts that only differ in the numbers of nodes;
* `clouds_independent`: a cloud that gets no class more is laid out and used as before.
-/

namespace VtableCloud

/-- A sub-vtable lies in the cloud of a root class. -/
def Hierarchy.Hosts (h : Hierarchy) (root : String) (key : SubVtableKey) : Prop :=
  ∃ id, h.find? key = some id ∧ (h.key (h.cloudRoot id)).className = root

/-- Two layouts are the same, with keys in place of the numbers that these have in the
hierarchies that were laid out. -/
structure CloudLayout.SameByKey (h h' : Hierarchy) (c c' : CloudLayout) : Prop where
  root : c'.root = c.root
  strategy : c'.strategy = c.strategy
  wordWidth : c'.wordWidth = c.wordWidth
  alignment : c'.alignment = c.alignment
  slots : c'.slots = c.slots
  preorder : c'.preorder.map h'.key = c.preorder.map h.key
  placed : ∀ key, (c'.placement? key).map (fun p => (p.prePad, p.positions)) =
    (c.placement? key).map fun p => (p.prePad, p.positions)

namespace Hierarchy

/-- The cloud of a root class is what descends from it. -/
theorem WellFormed.hosts_iff {h : Hierarchy} (wf : h.WellFormed) {name : String} {root : NodeId}
    (found : h.rootId name = .ok root) (top : h.cloudRoot root = root) {key : SubVtableKey} :
    h.Hosts name key ↔ ∃ id, h.Descends root id ∧ h.find? key = some id := by
  constructor
  · rintro ⟨id, known, rfl⟩
    have lt := (wf.find?_eq_some.mp known).1
    obtain rfl := Except.ok.inj (found.symm.trans (wf.rootId_cloudRoot lt))
    exact ⟨id, wf.descends_cloudRoot id, known⟩
  · rintro ⟨id, path, known⟩
    refine ⟨id, known, ?_⟩
    rw [wf.cloudRoot_of_descends path, top, (wf.rootId_ok found).2]
    rfl

/-- A cloud that is found elsewhere has the same keys there. -/
theorem Embeds.exists_find?_iff {f : NodeId → NodeId} {h h' : Hierarchy} {root : NodeId}
    (e : Embeds f h h' root) (wf : h.WellFormed) (wf' : h'.WellFormed) (lt : root < h.size)
    (lt' : f root < h'.size) {key : SubVtableKey} :
    (∃ id, h'.Descends (f root) id ∧ h'.find? key = some id) ↔
      ∃ id, h.Descends root id ∧ h.find? key = some id := by
  constructor
  · rintro ⟨id', path', known⟩
    obtain ⟨id, path, rfl⟩ := e.renumbers.exists_of_reaches path'
    have same := (wf'.find?_eq_some.mp known).2
    rw [e.key path] at same
    exact ⟨id, path, wf.find?_eq_some.mpr ⟨wf.lt_size_of_descends path lt, same⟩⟩
  · rintro ⟨id, path, known⟩
    obtain ⟨-, rfl⟩ := wf.find?_eq_some.mp known
    have down := e.descends path
    exact ⟨f id, down,
      wf'.find?_eq_some.mpr ⟨wf'.lt_size_of_descends down lt', e.key path⟩⟩

/-- The layout of a cloud that is found elsewhere reads the same there. -/
theorem Embeds.sameByKey {f : NodeId → NodeId} {h h' : Hierarchy} {root : NodeId}
    (e : Embeds f h h' root) (options : LayoutOptions) :
    CloudLayout.SameByKey h h' (h.arrangedCloud options root)
      ((h.arrangedCloud options root).renumber f) := by
  refine ⟨rfl, rfl, rfl, rfl, rfl, ?preorder, ?placed⟩
  case preorder =>
    rw [← e.arrangedCloud, preorder_arrangedCloud, preorder_arrangedCloud,
      e.preorder (.refl root), List.map_map]
    exact List.map_congr_left fun id hid => e.key (mem_preorder.mp hid)
  case placed =>
    intro key
    rw [CloudLayout.placement?_renumber, Option.map_map]
    rfl

/-- A cloud that is found elsewhere gets a layout that reads the same there, or none for the
same reason. -/
theorem Embeds.layoutCloud_cases {f : NodeId → NodeId} {h h' : Hierarchy} {root : NodeId}
    (e : Embeds f h h' root) (wf : h.WellFormed) (wf' : h'.WellFormed) {name : String}
    (found : h.rootId name = .ok root) (found' : h'.rootId name = .ok (f root))
    (options : LayoutOptions) :
    (∃ err, h.layoutCloud options name = .error err ∧
      h'.layoutCloud options name = .error err) ∨
    ∃ c c', h.layoutCloud options name = .ok c ∧ h'.layoutCloud options name = .ok c' ∧
      CloudLayout.SameByKey h h' c c' := by
  rw [e.layoutCloud wf wf' found found']
  cases laid : h.layoutCloud options name with
  | error err => exact Or.inl ⟨err, rfl, rfl⟩
  | ok c =>
    obtain ⟨-, id, found'', -, rfl, -⟩ := wf.layoutCloud_ok.mp laid
    obtain rfl := Except.ok.inj (found.symm.trans found'')
    exact Or.inr ⟨_, _, rfl, rfl, e.sameByKey options⟩

end Hierarchy

/-- Records of other classes are added, none of which gets into the cloud of a root class. The
cloud has the same sub-vtables, is laid out in the same way or refused for the same reason, and
calls into it have the same valid addresses and the same offsets. -/
theorem clouds_independent {records others : List ClassRecord} {h h' : Hierarchy} {name : String}
    (ingested : Hierarchy.ofRecords records = .ok h)
    (ingested' : Hierarchy.ofRecords (records ++ others) = .ok h')
    (unrelated : ∀ r ∈ records, ¬ Describes others r.name) (hr : name ∈ h.roots)
    (apart : ∀ key, h'.Hosts name key → ¬ Describes others key.className)
    (options : LayoutOptions) :
    (∀ key, h'.Hosts name key ↔ h.Hosts name key) ∧
    ((∃ err, h.layoutCloud options name = .error err ∧
        h'.layoutCloud options name = .error err) ∨
      ∃ c c', h.layoutCloud options name = .ok c ∧ h'.layoutCloud options name = .ok c' ∧
        CloudLayout.SameByKey h h' c c') ∧
    ∀ l l', Layouts.build h options = .ok l → Layouts.build h' options = .ok l' →
      ∀ key, h.Hosts name key →
        (∀ precision, l'.rangeFor key precision = l.rangeFor key precision) ∧
        ∀ offset relative, l'.translate key offset relative = l.translate key offset relative := by
  have enlarges : Hierarchy.Enlarges records others h h' := ⟨ingested, ingested', unrelated⟩
  have wf := enlarges.wf
  have wf' := enlarges.wf'
  obtain ⟨root, lt, found, -, top⟩ := wf.rootId_of_mem hr
  obtain ⟨found', top'⟩ := enlarges.rootId_renumbering hr found
  have lt' := (wf'.rootId_ok found').1
  have embeds : Hierarchy.Embeds (h.renumbering h') h h' root := by
    refine enlarges.embeds lt fun id path => ?_
    exact apart _ ((wf'.hosts_iff found' top').mpr
      ⟨id, path, wf'.find?_key (wf'.lt_size_of_descends path lt')⟩)
  refine ⟨fun key => ?hosted, embeds.layoutCloud_cases wf wf' found found' options, ?used⟩
  case hosted =>
    rw [wf'.hosts_iff found' top', wf.hosts_iff found top]
    exact embeds.exists_find?_iff wf wf' lt lt'
  case used =>
    intro l l' laid laid' key hosted
    obtain ⟨built, rfl, rfl⟩ := Layouts.built_of_build wf laid
    obtain ⟨built', rfl, same⟩ := Layouts.built_of_build wf' laid'
    have shares : Layouts.Shares _ l l' root :=
      ⟨built, built', same, embeds, lt, lt', top, top'⟩
    obtain ⟨a, path, known⟩ := (wf.hosts_iff found top).mp hosted
    exact ⟨shares.rangeFor path known, shares.translate path known⟩

namespace Drawing

/-- A class of its own and one that inherits from it and from a base that is there already. -/
def more : List ClassRecord := [
  ⟨"Ledger", [⟨0, .ofList [.primary "Store"], 0, 2, 2, []⟩,
      ⟨1, .ofList [.primary "Entry"], 3, 5, 5, []⟩],
    [.offset 0, .rtti "_ZTI6Ledger", .function "_ZN6Ledger1gEv", .offset (-8),
      .rtti "_ZTI6Ledger", .function "_ZThn8_N6Ledger1hEv"], true⟩,
  ⟨"Entry", [⟨0, .empty, 0, 2, 2, []⟩],
    [.offset 0, .rtti "_ZTI5Entry", .function "_ZN5Entry1hEv"], true⟩]

end Drawing

/-- Both classes come before `Shape`, whose number grows, and one of them is added to the cloud of
`Store`, where `Drawing` lies as well. -/
theorem drawing_independent : ∃ h h' c c' l l', Hierarchy.ofRecords Drawing.records = .ok h ∧
    Hierarchy.ofRecords (Drawing.records ++ Drawing.more) = .ok h' ∧
    h.layoutCloud ⟨.interleaved, 8⟩ "Shape" = .ok c ∧
    h'.layoutCloud ⟨.interleaved, 8⟩ "Shape" = .ok c' ∧ c.preorder = [2, 0] ∧
    c'.preorder = [5, 0] ∧ c'.slots = c.slots ∧ Layouts.build h ⟨.interleaved, 8⟩ = .ok l ∧
    Layouts.build h' ⟨.interleaved, 8⟩ = .ok l' ∧ h.Hosts "Shape" (.primary "Drawing") ∧
    l'.rangeFor (.primary "Drawing") .precise = l.rangeFor (.primary "Drawing") .precise := by
  obtain ⟨h, ingested⟩ : ∃ h, Hierarchy.ofRecords Drawing.records = .ok h := ⟨_, rfl⟩
  obtain ⟨h', ingested'⟩ : ∃ h', Hierarchy.ofRecords (Drawing.records ++ Drawing.more) = .ok h' :=
    ⟨_, rfl⟩
  obtain ⟨l, laid⟩ : ∃ l, Layouts.build h ⟨.interleaved, 8⟩ = .ok l := by
    cases ingested
    exact ⟨_, rfl⟩
  obtain ⟨l', laid'⟩ : ∃ l', Layouts.build h' ⟨.interleaved, 8⟩ = .ok l' := by
    cases ingested'
    exact ⟨_, rfl⟩
  have hr : "Shape" ∈ h.roots := by
    cases ingested
    decide
  have unrelated : ∀ r ∈ Drawing.records, ¬ Describes Drawing.more r.name := by
    simp only [Describes]
    decide
  have apart : ∀ key, h'.Hosts "Shape" key → ¬ Describes Drawing.more key.className := by
    rintro key ⟨id, known, hosted⟩
    obtain ⟨lt, rfl⟩ := (Hierarchy.wellFormed_of_ofRecords ingested').find?_eq_some.mp known
    have members : ∀ id < h'.size, (h'.key (h'.cloudRoot id)).className = "Shape" →
        ∀ r ∈ Drawing.more, r.name ≠ (h'.key id).className := by
      cases ingested'
      decide
    rintro ⟨r, added, name⟩
    exact members id lt hosted r added name
  obtain ⟨-, laidOut, used⟩ :=
    clouds_independent ingested ingested' unrelated hr apart ⟨.interleaved, 8⟩
  obtain ⟨c, laidCloud, order⟩ : ∃ c, h.layoutCloud ⟨.interleaved, 8⟩ "Shape" = .ok c ∧
      c.preorder = [2, 0] := by
    cases ingested
    exact ⟨_, rfl, rfl⟩
  have order' : ∀ c', h'.layoutCloud ⟨.interleaved, 8⟩ "Shape" = .ok c' →
      c'.preorder = [5, 0] := by
    cases ingested'
    rintro c' ⟨⟩
    rfl
  have hosted : h.Hosts "Shape" (.primary "Drawing") := by
    cases ingested
    exact ⟨0, rfl, rfl⟩
  rcases laidOut with ⟨err, refused, -⟩ | ⟨c₀, c', laidCloud₀, laidCloud', same⟩
  · rw [laidCloud] at refused
    cases refused
  · obtain rfl := Except.ok.inj (laidCloud.symm.trans laidCloud₀)
    exact ⟨h, h', c, c', l, l', ingested, ingested', laidCloud, laidCloud', order,
      order' c' laidCloud', same.slots, laid, laid', hosted, (used l l' laid laid' _ hosted).1 _⟩

end VtableCloud
