import VtableCloud.Proofs.Hierarchy.Renumbering
import VtableCloud.Proofs.Layout.Cloud

/-!
# Layouts of renumbered clouds

A layout is made of keys and indices. Node numbers only choose the order, and a cloud keeps its
order when it is found inside a larger hierarchy.

* `Embeds.prePadding`, `Embeds.paddedMembers`: the members of the cloud have the same padding;
* `Strategy.arrange_outline`: arrangements do not look at numbers and links;
* `Embeds.arrangedCloud`, `Embeds.addressPointPosition?`: the layout is the same but for the
  numbers;
* `Embeds.layoutCloud`: and so is the error if there is one.
-/

namespace VtableCloud

/-! ## Arrangements -/

/-- A member without its number and links. -/
def Member.outline (m : Member) : Member := ⟨0, m.node.outline, m.pad⟩

variable {members : List Member}

theorem orderedFrom_outline (alignment : Nat) : ∀ (position : Nat),
    orderedFrom alignment position (members.map Member.outline) =
      orderedFrom alignment position members := by
  induction members with
  | nil => exact fun _ => rfl
  | cons m members ih =>
    intro position
    rw [List.map_cons, orderedFrom, orderedFrom]
    simp only [ih]
    rfl

theorem ordered_outline : ordered (members.map Member.outline) = ordered members := by
  have alignment : orderedAlignment (members.map Member.outline) = orderedAlignment members := by
    rw [orderedAlignment, orderedAlignment, List.map_map]
    rfl
  rw [ordered, ordered, alignment, orderedFrom_outline]

/-- A cursor on a member without its number and links. -/
def Cursor.outline (c : Cursor) : Cursor := ⟨c.member.outline, c.next⟩

namespace Direction

variable {d : Direction}

theorem round_outline (cursors : List Cursor) :
    d.round (cursors.map Cursor.outline) = d.round cursors := by
  have remaining : d.remaining ∘ Cursor.outline = d.remaining := by
    cases d with
    | forward => rfl
    | backward => rfl
  rw [round, round, List.filter_map, remaining, List.map_map]
  rfl

theorem advance_outline (c : Cursor) : d.advance c.outline = (d.advance c).outline := by
  have remaining : d.remaining c.outline = d.remaining c := by
    cases d with
    | forward => rfl
    | backward => rfl
  rw [advance, advance, remaining]
  split <;> rfl

theorem rounds_outline (limit : Nat) : ∀ cursors : List Cursor,
    d.rounds limit (cursors.map Cursor.outline) = d.rounds limit cursors := by
  induction limit with
  | zero => exact fun _ => rfl
  | succ limit ih =>
    intro cursors
    have next : (cursors.map Cursor.outline).map d.advance =
        (cursors.map d.advance).map Cursor.outline := by
      rw [List.map_map, List.map_map]
      exact List.map_congr_left fun c _ => advance_outline c
    rw [rounds, rounds, round_outline, next, ih]

theorem allRounds_outline (members : List Member) :
    d.allRounds (members.map Member.outline) = d.allRounds members := by
  have start : d.start (members.map Member.outline) =
      (d.start members).map Cursor.outline := by
    rw [Direction.start, Direction.start, List.filter_map, List.map_map, List.map_map]
    rfl
  have left : d.left ∘ Cursor.outline = d.left := by
    cases d with
    | forward => rfl
    | backward => rfl
  rw [allRounds, allRounds, start, rounds_outline, List.map_map, left]

end Direction

theorem interleaved_outline : interleaved (members.map Member.outline) = interleaved members := by
  rw [interleaved, interleaved, Direction.allRounds_outline, Direction.allRounds_outline]

/-- Arrangements do not look at numbers and links. -/
theorem Strategy.arrange_outline (strategy : Strategy) (members : List Member) :
    strategy.arrange (members.map Member.outline) = strategy.arrange members := by
  cases strategy with
  | ordered => exact ordered_outline
  | interleaved => exact interleaved_outline

/-- And neither does what keeps the members from having one. -/
theorem Strategy.table_outline (strategy : Strategy) (members : List Member) :
    strategy.table (members.map Member.outline) = strategy.table members := by
  have fails : strategy.fails (members.map Member.outline) = strategy.fails members := by
    cases strategy with
    | interleaved => rfl
    | ordered =>
      have alignment : orderedAlignment (members.map Member.outline) = orderedAlignment members :=
        congrArg Arrangement.alignment ordered_outline
      show orderedFails _ = orderedFails _
      rw [orderedFails, orderedFails, alignment, List.any_map]
      rfl
  rw [table, table, fails, arrange_outline]

/-! ## The check of the slots -/

theorem Member.notePlaces_outline (m : Member) (slots : List Slot) :
    ∀ (places : Array (Option Nat)) (position : Nat),
      m.outline.notePlaces places position slots = m.notePlaces places position slots := by
  induction slots with
  | nil => exact fun _ _ => rfl
  | cons slot rest ih =>
    intro places position
    rw [notePlaces, notePlaces, ih]
    rfl

theorem Member.positions_outline (m : Member) (slots : List Slot) :
    m.outline.positions slots = m.positions slots :=
  congrArg notedPositions (m.notePlaces_outline slots _ 0)

/-- A member without its number and links, and where it was found. -/
def Located.outline (l : Located) : Located := ⟨l.member.outline, l.places⟩

theorem Located.ofMember_outline (slots : List Slot) (m : Member) :
    ofMember slots m.outline = (ofMember slots m).outline := by
  have places : m.outline.firstPlaces slots = m.firstPlaces slots := m.notePlaces_outline slots _ 0
  rw [ofMember, places]
  rfl

theorem slotViolation?_outline (located : List Located) (position : Nat) (slot : Slot) :
    slotViolation? (located.map Located.outline) position slot =
      slotViolation? located position slot := by
  cases slot with
  | dummy => rfl
  | entry key index =>
    have found : (located.map Located.outline).find? (·.member.key == key) =
        (located.find? (·.member.key == key)).map Located.outline := List.find?_map ..
    rw [slotViolation?, slotViolation?, found]
    cases located.find? (·.member.key == key) <;> rfl

theorem slotsViolation?_outline (located : List Located) (slots : List Slot) : ∀ position,
    slotsViolation? (located.map Located.outline) position slots =
      slotsViolation? located position slots := by
  induction slots with
  | nil => exact fun _ => rfl
  | cons slot rest ih =>
    intro position
    rw [slotsViolation?, slotsViolation?, slotViolation?_outline, ih]

/-- The check of the slots does not look at numbers and links. -/
theorem checkStream_outline (root : String) (strategy : Strategy) (members : List Member)
    (table : Arrangement) : checkStream root strategy (members.map Member.outline) table =
      checkStream root strategy members table := by
  have located : (members.map Member.outline).map (Located.ofMember table.slots) =
      (members.map (Located.ofMember table.slots)).map Located.outline := by
    rw [List.map_map, List.map_map]
    exact List.map_congr_left fun m _ => Located.ofMember_outline table.slots m
  have error : streamError? root strategy (members.map Member.outline) table =
      streamError? root strategy members table := by
    simp only [streamError?, located, slotsViolation?_outline, List.findSome?_map]
    rfl
  rw [checkStream, checkStream, error]

/-! ## Layouts -/

/-- A layout with other node numbers. -/
def CloudLayout.renumber (f : NodeId → NodeId) (c : CloudLayout) : CloudLayout :=
  { c with
    preorder := c.preorder.map f
    placements := c.placements.map fun p => { p with node := f p.node } }

/-- Members that are the same apart from their numbers and links are placed the same. -/
theorem CloudLayout.ofArrangement_map {f : NodeId → NodeId} {g : Member → Member}
    (id : ∀ m, (g m).id = f m.id) (outline : ∀ m ∈ members, (g m).outline = m.outline)
    (root : String) (options : LayoutOptions) (table : Arrangement) :
    ofArrangement root options (members.map g) table =
      (ofArrangement root options members table).renumber f := by
  have preorder : (members.map g).map (·.id) = (members.map (·.id)).map f := by
    rw [List.map_map, List.map_map]
    exact List.map_congr_left fun m _ => id m
  have defined : (members.map g).filter (·.node.isDefined) =
      (members.filter (·.node.isDefined)).map g := by
    rw [List.filter_map]
    refine congrArg _ (List.filter_congr fun m hm => ?_)
    show (g m).outline.node.isDefined = m.outline.node.isDefined
    rw [outline m hm]
  have placed (m : Member) (hm : m ∈ members) :
      (⟨(g m).key, (g m).id, (g m).pad, (g m).positions table.slots⟩ : Placement) =
        ⟨m.key, f m.id, m.pad, m.positions table.slots⟩ := by
    have key : (g m).key = m.key := by
      show (g m).outline.key = m.outline.key
      rw [outline m hm]
    have pad : (g m).pad = m.pad := by
      show (g m).outline.pad = m.outline.pad
      rw [outline m hm]
    have positions : (g m).positions table.slots = m.positions table.slots := by
      rw [← Member.positions_outline, ← m.positions_outline, outline m hm]
    rw [key, id m, pad, positions]
  have placements : ((members.map g).filter (·.node.isDefined)).map
        (fun m => (⟨m.key, m.id, m.pad, m.positions table.slots⟩ : Placement)) =
      ((members.filter (·.node.isDefined)).map fun m =>
        (⟨m.key, m.id, m.pad, m.positions table.slots⟩ : Placement)).map
        fun p => { p with node := f p.node } := by
    rw [defined, List.map_map, List.map_map]
    exact List.map_congr_left fun m hm => placed m (List.mem_filter.mp hm).1
  rw [renumber, ofArrangement, ofArrangement, preorder, placements]

theorem CloudLayout.placement?_renumber (f : NodeId → NodeId) (c : CloudLayout)
    (key : SubVtableKey) : (c.renumber f).placement? key =
      (c.placement? key).map fun p => { p with node := f p.node } := by
  rw [placement?, renumber, List.find?_map]
  rfl

namespace Hierarchy

namespace Embeds

variable {f : NodeId → NodeId} {h h' : Hierarchy} {root : NodeId}

/-! ## Padding -/

theorem forwardEdges (e : Embeds f h h' root) :
    h'.forwardEdges (h'.preorder (f root)) = h.forwardEdges (h.preorder root) := by
  rw [e.preorder (.refl root), Hierarchy.forwardEdges, Hierarchy.forwardEdges, List.zipIdx_map,
    List.flatMap_map]
  refine List.flatMap_congr ?_
  rintro ⟨id, i⟩ hi
  have inside := List.mem_of_getElem? (List.mem_zipIdx_iff_getElem?.mp hi)
  have children := e.children id (mem_preorder.mp inside)
  simp only [Prod.map, id_eq, forwardEdgesFrom, children, List.filterMap_map, Function.comp_def,
    idxOf?_map_of_injective e.injective]

/-- The node at a place of the cloud. -/
theorem place (e : Embeds f h h' root) {k : Nat} (lt : k < (h.preorder root).length) :
    ∃ a, h.Descends root a ∧ (h.preorder root).getD k 0 = a ∧
      (h'.preorder (f root)).getD k 0 = f a := by
  refine ⟨(h.preorder root)[k], mem_preorder.mp (List.getElem_mem lt), by simp [lt], ?_⟩
  rw [e.preorder (.refl root)]
  simp [lt]

theorem prePadding (e : Embeds f h h' root) :
    h'.prePadding (h'.preorder (f root)) = h.prePadding (h.preorder root) := by
  have length : (h'.preorder (f root)).length = (h.preorder root).length := by
    rw [e.preorder (.refl root), List.length_map]
  rw [Hierarchy.prePadding, Hierarchy.prePadding, e.forwardEdges, length]
  refine List.foldl_ext _ _ _ ?_
  rintro pads ⟨i, j⟩ edge
  have ends := forwardEdges_lt edge
  obtain ⟨a, parent, ha, ha'⟩ := e.place (Nat.lt_trans ends.1 ends.2)
  obtain ⟨b, child, hb, hb'⟩ := e.place ends.2
  simp only [padEdge] at ha ha' hb hb' ⊢
  rw [ha, ha', hb, hb', e.addressOffset parent, e.addressOffset child]

/-! ## Members -/

theorem paddedMembers (e : Embeds f h h' root) :
    h'.paddedMembers (f root) =
      (h.paddedMembers root).map fun m => ⟨f m.id, h'.node (f m.id), m.pad⟩ := by
  have pads := e.prePadding
  rw [e.preorder (.refl root)] at pads
  simp only [Hierarchy.paddedMembers, members, e.preorder (.refl root), pads, List.zip_map_left,
    List.map_map]
  rfl

/-- Apart from their numbers and links, the members are the same. -/
theorem outline_member (e : Embeds f h h' root) {m : Member} (hm : m ∈ h.paddedMembers root) :
    (Member.mk (f m.id) (h'.node (f m.id)) m.pad).outline = m.outline := by
  obtain ⟨k, hk⟩ := List.mem_iff_getElem?.mp hm
  obtain ⟨hid, -, node⟩ := getElem?_members hk
  have path := mem_preorder.mp (List.mem_of_getElem? hid)
  rw [Member.outline, Member.outline, node, e.outline m.id path]

theorem outline_paddedMembers (e : Embeds f h h' root) :
    (h'.paddedMembers (f root)).map Member.outline =
      (h.paddedMembers root).map Member.outline := by
  rw [e.paddedMembers, List.map_map]
  exact List.map_congr_left fun m hm => e.outline_member hm

/-- The cloud is laid out as before, with other numbers. -/
theorem arrangedCloud (e : Embeds f h h' root) (options : LayoutOptions) :
    h'.arrangedCloud options (f root) = (h.arrangedCloud options root).renumber f := by
  have table : options.strategy.arrange (h'.paddedMembers (f root)) =
      options.strategy.arrange (h.paddedMembers root) := by
    rw [← options.strategy.arrange_outline (h.paddedMembers root),
      ← options.strategy.arrange_outline, e.outline_paddedMembers]
  rw [Hierarchy.arrangedCloud, Hierarchy.arrangedCloud, table, e.key (.refl root),
    e.paddedMembers]
  exact CloudLayout.ofArrangement_map (fun _ => rfl) (fun m hm => e.outline_member hm) _ _ _

/-- Children of the cloud are compared with their parents, with the same result. -/
theorem checkContainment (e : Embeds f h h' root) (options : LayoutOptions) :
    (h'.arrangedCloud options (f root)).checkContainment h' =
      (h.arrangedCloud options root).checkContainment h := by
  have violation (edge : Nat × Nat) (member : edge ∈ h.forwardEdges (h.preorder root)) :
      (h'.arrangedCloud options (f root)).edgeViolation? h' edge =
        (h.arrangedCloud options root).edgeViolation? h edge := by
    have ends := forwardEdges_lt member
    obtain ⟨a, parent, ha, ha'⟩ := e.place (Nat.lt_trans ends.1 ends.2)
    obtain ⟨b, child, hb, hb'⟩ := e.place ends.2
    have keyParent : (h'.node (f a)).key = (h.node a).key := e.key parent
    have keyChild : (h'.node (f b)).key = (h.node b).key := e.key child
    simp only [CloudLayout.edgeViolation?, preorder_arrangedCloud]
    rw [ha, ha', hb, hb', keyParent, keyChild, e.arrangedCloud, CloudLayout.placement?_renumber,
      CloudLayout.placement?_renumber]
    cases (h.arrangedCloud options root).placement? (h.node a).key with
    | none => rfl
    | some p =>
      cases (h.arrangedCloud options root).placement? (h.node b).key with
      | none => rfl
      | some q =>
        -- The comparison looks at the outlines of the nodes only.
        show (VtableCloud.edgeViolation? (h'.node (f a)).outline (h'.node (f b)).outline p q).map
            _ = (VtableCloud.edgeViolation? (h.node a).outline (h.node b).outline p q).map _
        rw [e.outline a parent, e.outline b child]
  rw [CloudLayout.checkContainment, CloudLayout.checkContainment, preorder_arrangedCloud,
    preorder_arrangedCloud, e.forwardEdges, root_arrangedCloud, root_arrangedCloud,
    e.key (.refl root), ← List.head?_filterMap, ← List.head?_filterMap,
    List.filterMap_congr violation]

/-- The address points have the same positions. -/
theorem addressPointPosition? (e : Embeds f h h' root) (options : LayoutOptions)
    (key : SubVtableKey) :
    (h'.arrangedCloud options (f root)).addressPointPosition? h' key =
      (h.arrangedCloud options root).addressPointPosition? h key := by
  rw [CloudLayout.addressPointPosition?, CloudLayout.addressPointPosition?, e.arrangedCloud,
    CloudLayout.placement?_renumber]
  cases placed : (h.arrangedCloud options root).placement? key with
  | none => rfl
  | some p =>
    obtain ⟨m, hm, rfl⟩ := List.mem_map.mp (List.mem_of_find?_eq_some placed)
    obtain ⟨k, hk⟩ := List.mem_iff_getElem?.mp (List.mem_filter.mp hm).1
    have path := mem_preorder.mp (List.mem_of_getElem? (getElem?_members hk).1)
    show (Placement.newIndices _)[(h'.node (f m.id)).addressOffset]? =
      (Placement.newIndices _)[(h.node m.id).addressOffset]?
    rw [e.addressOffset path]
    rfl

end Embeds

/-- A root class is refused for words without width, because its numbers do not fit, or because a
child does not look like its parent. -/
theorem WellFormed.layoutCloud_eq {h : Hierarchy} (wf : h.WellFormed) {name : String}
    {root : NodeId} (found : h.rootId name = .ok root) (options : LayoutOptions) :
    h.layoutCloud options name =
      if options.wordWidth = 0 then .error .zeroWordWidth
      else do
        let table ← options.strategy.table (h.paddedMembers root)
        checkStream name options.strategy (h.paddedMembers root) table
        (h.arrangedCloud options root).checkContainment h
        return h.arrangedCloud options root := by
  obtain ⟨lt, key⟩ := wf.rootId_ok found
  have named : name = (h.key root).className := by rw [key]; rfl
  have arranged : CloudLayout.ofArrangement name options (h.paddedMembers root)
      (options.strategy.arrange (h.paddedMembers root)) = h.arrangedCloud options root := by
    rw [named]
    rfl
  rw [layoutCloud, LayoutOptions.check, found]
  split
  · rfl
  · show (do
      let table ← options.strategy.table (h.paddedMembers root)
      checkStream name options.strategy (h.paddedMembers root) table
      (CloudLayout.ofArrangement name options (h.paddedMembers root) table).checkContainment h
      return CloudLayout.ofArrangement name options (h.paddedMembers root) table) = _
    cases made : options.strategy.table (h.paddedMembers root) with
    | error e => rfl
    | ok table =>
      obtain ⟨-, rfl⟩ := Strategy.table_ok.mp made
      rw [← arranged]
      rfl

/-- A root class is laid out in the same way where its cloud is found in another hierarchy, or it
is refused for the same reason. -/
theorem Embeds.layoutCloud {f : NodeId → NodeId} {h h' : Hierarchy} {root : NodeId}
    (e : Embeds f h h' root) (wf : h.WellFormed) (wf' : h'.WellFormed) {name : String}
    (found : h.rootId name = .ok root) (found' : h'.rootId name = .ok (f root))
    (options : LayoutOptions) :
    h'.layoutCloud options name = (h.layoutCloud options name).map (·.renumber f) := by
  have made : options.strategy.table (h'.paddedMembers (f root)) =
      options.strategy.table (h.paddedMembers root) := by
    rw [← Strategy.table_outline, e.outline_paddedMembers, Strategy.table_outline]
  have checked (table : Arrangement) :
      checkStream name options.strategy (h'.paddedMembers (f root)) table =
        checkStream name options.strategy (h.paddedMembers root) table := by
    rw [← checkStream_outline, e.outline_paddedMembers, checkStream_outline]
  rw [wf.layoutCloud_eq found, wf'.layoutCloud_eq found', made, e.checkContainment,
    e.arrangedCloud]
  split
  · rfl
  · cases options.strategy.table (h.paddedMembers root) with
    | error e => rfl
    | ok table =>
      simp only [checked, bind, Except.bind]
      cases checkStream name options.strategy (h.paddedMembers root) table with
      | error e => rfl
      | ok => cases (h.arrangedCloud options root).checkContainment h <;> rfl

end Hierarchy

end VtableCloud
