import VtableCloud.Proofs.Layout.Fitting

/-!
# The layout of one cloud

`Hierarchy.arrangedCloud` is what a root's layout looks like if it is not refused.

* `WellFormed.fits_iff`: which clouds pass the check of their slots;
* `layoutCloud_ok`: beyond that, a layout is only refused because a child does not look like its
  parent;
* `member_of_slot`: but for filler, only slots of defined members stand in its table;
* `placement?_arrangedCloud`: the positions recorded for the defined member at a place;
* `addressPointPosition?_of_isDefined`, `sorted_addressPoints`: each defined member has an
  address point, and they stand in the order of the preorder;
* `slot_between`: nothing but address points and filler is aligned like an address point.
-/

namespace VtableCloud

theorem LayoutOptions.check_ok {o o' : LayoutOptions} :
    o.check = .ok o' ↔ 0 < o.wordWidth ∧ o' = o := by
  rw [check]
  split
  · simp [*]
  · simp [Nat.pos_of_ne_zero, eq_comm, *]

theorem LayoutError.ofViolation_ok {cloud : String} {found : Option (SubVtableKey × Violation)} :
    LayoutError.ofViolation cloud found = .ok () ↔ found = none := by
  cases found <;> simp [LayoutError.ofViolation]

/-- For a defined member are recorded the positions of its slots. -/
theorem CloudLayout.placement?_ofArrangement {root : String} {options : LayoutOptions}
    {members : List Member} {table : Arrangement} (sep : Separate members) {m : Member}
    (hm : m ∈ members) (defined : m.node.isDefined = true) :
    (ofArrangement root options members table).placement? m.key =
      some ⟨m.key, m.id, m.pad, m.positions table.slots⟩ := by
  have found := (sep.filter (·.node.isDefined)).keys.find?_key (List.mem_filter.mpr ⟨hm, defined⟩)
  rw [placement?, ofArrangement, List.find?_map]
  exact congrArg (Option.map _) found

/-- The new position of a node's address point, if it has one. -/
def CloudLayout.addressPoint (c : CloudLayout) (h : Hierarchy) (id : NodeId) : Nat :=
  (c.addressPointPosition? h (h.key id)).getD 0

namespace Hierarchy

/-- The layout of the cloud of a root node, before children are compared with their parents. -/
def arrangedCloud (h : Hierarchy) (options : LayoutOptions) (root : NodeId) : CloudLayout :=
  .ofArrangement (h.key root).className options (h.paddedMembers root)
    (options.strategy.arrange (h.paddedMembers root))

variable {h : Hierarchy} {options : LayoutOptions} {root : NodeId}

theorem preorder_arrangedCloud : (h.arrangedCloud options root).preorder = h.preorder root :=
  h.map_id_paddedMembers root

theorem root_arrangedCloud : (h.arrangedCloud options root).root = (h.key root).className := rfl

/-- A root node whose cloud a strategy has a table for, with all numbers words. -/
structure Fits (h : Hierarchy) (options : LayoutOptions) (root : NodeId) : Prop where
  lt : root < h.size
  members : options.strategy.Fits (h.paddedMembers root)

instance (h : Hierarchy) (options : LayoutOptions) (root : NodeId) :
    Decidable (h.Fits options root) :=
  decidable_of_iff (root < h.size ∧ options.strategy.Fits (h.paddedMembers root))
    ⟨fun ⟨lt, members⟩ => ⟨lt, members⟩, fun fits => ⟨fits.lt, fits.members⟩⟩

/-- What suits the ordered strategy suits the interleaved one, whatever the word width. -/
theorem Fits.interleaved {h : Hierarchy} {root : NodeId} {wordWidth other : Nat}
    (fits : h.Fits ⟨.ordered, wordWidth⟩ root) : h.Fits ⟨.interleaved, other⟩ root :=
  ⟨fits.lt, fits.members.words, rfl⟩

theorem WellFormed.before_lt (wf : h.WellFormed) (lt : root < h.size) {m : Member}
    (hm : m ∈ h.paddedMembers root) : m.before < wordCount := by
  obtain ⟨k, hk⟩ := List.mem_iff_getElem?.mp hm
  have shallow : ∀ a ∈ h.preorder root, (h.node a).addressOffset ≤ wordCount - 1 := by
    intro a ha
    have inside := wf.lt_size_of_descends (mem_preorder.mp ha) lt
    have last := wf.last_lt inside
    have pointed := wf.pointed inside
    rw [Node.addressOffset]
    omega
  have deep := depth_add_prePadding_le shallow (getElem?_members hk).1
  rw [before_of_getElem? hk, depthAt_of_place (getElem?_members hk).1]
  have some : 0 < wordCount := by decide
  omega

theorem WellFormed.after_lt (wf : h.WellFormed) (lt : root < h.size) {m : Member}
    (hm : m ∈ h.paddedMembers root) : m.after < wordCount := by
  obtain ⟨node, inside⟩ := wf.node_of_mem lt hm
  have last := wf.last_lt inside
  rw [Member.after, node]
  omega

/-- The cloud of a root fits just if its arrangement passes the check of its slots. -/
theorem WellFormed.fits_iff (wf : h.WellFormed) (lt : root < h.size) (name : String) :
    h.Fits options root ↔ ∃ table, options.strategy.table (h.paddedMembers root) = .ok table ∧
      checkStream name options.strategy (h.paddedMembers root) table = .ok () := by
  have keys : DistinctKeys (h.paddedMembers root) := wf.distinctKeys lt (h.prePadding_spec _).1
  rw [← Strategy.fits_iff keys name (fun m hm => wf.pointed_of_mem lt hm)
    (fun m hm => wf.before_lt lt hm) fun m hm => wf.after_lt lt hm]
  exact ⟨Fits.members, fun members => ⟨lt, members⟩⟩

theorem WellFormed.separate_paddedMembers (wf : h.WellFormed) (fits : h.Fits options root) :
    Separate (h.paddedMembers root) :=
  wf.separate fits.lt (h.prePadding_spec _).1 fits.members.words

theorem WellFormed.arranges_arrangedCloud (wf : h.WellFormed) (fits : h.Fits options root) :
    Arranges (h.paddedMembers root)
      ⟨(h.arrangedCloud options root).slots, (h.arrangedCloud options root).alignment⟩
      (options.strategy.place (h.paddedMembers root)) :=
  arranges_arrange (wf.separate_paddedMembers fits) fits.members.succeeds

/-- The member at the place of a node is that of the node. -/
theorem member_of_place {k : Nat} {id : NodeId} (hid : (h.preorder root)[k]? = some id) :
    ∃ m, (h.paddedMembers root)[k]? = some m ∧ m.id = id ∧ m.node = h.node id := by
  rw [← h.map_id_paddedMembers root, List.getElem?_map, Option.map_eq_some_iff] at hid
  obtain ⟨m, hm, rfl⟩ := hid
  exact ⟨m, hm, rfl, (getElem?_members hm).2.2⟩

/-- A defined node of a cloud has a defined member. -/
theorem member_of_isDefined {id : NodeId} (path : h.Descends root id)
    (defined : h.isDefined id = true) :
    ∃ (k : Nat) (m : Member), (h.paddedMembers root)[k]? = some m ∧ m.id = id ∧
      m.node = h.node id ∧ m.node.isDefined = true := by
  obtain ⟨k, hk⟩ := List.mem_iff_getElem?.mp (mem_preorder.mpr path)
  obtain ⟨m, hm, id, node⟩ := member_of_place hk
  exact ⟨k, m, hm, id, node, by rw [node]; exact defined⟩

/-- A slot of a table that is no filler is one of a defined member. -/
theorem WellFormed.member_of_slot (wf : h.WellFormed) (fits : h.Fits options root) {slot : Slot}
    (hs : slot ∈ (h.arrangedCloud options root).slots) (entry : slot ≠ .dummy) :
    ∃ (k : Nat) (m : Member) (i : Nat), (h.paddedMembers root)[k]? = some m ∧
      h.Descends root m.id ∧ m.node.isDefined = true ∧ i < m.extent ∧ slot = m.entry i := by
  obtain ⟨m, hm, defined, i, within, eq⟩ := (wf.arranges_arrangedCloud fits).only slot hs entry
  obtain ⟨k, hk⟩ := List.mem_iff_getElem?.mp hm
  have path := mem_preorder.mp (List.mem_of_getElem? (getElem?_members hk).1)
  exact ⟨k, m, i, hk, path, defined, within, eq⟩

/-- The positions recorded for the defined member at a place are those of its slots. -/
theorem WellFormed.placement?_arrangedCloud (wf : h.WellFormed) (fits : h.Fits options root)
    {k : Nat} {m : Member} (hm : (h.paddedMembers root)[k]? = some m)
    (defined : m.node.isDefined = true) :
    (h.arrangedCloud options root).placement? m.key =
      some ⟨m.key, m.id, m.pad,
        (List.range m.extent).map (options.strategy.place (h.paddedMembers root) k)⟩ := by
  have positions := (wf.arranges_arrangedCloud fits).positions_eq hm defined
  rw [← positions]
  exact CloudLayout.placement?_ofArrangement (wf.separate_paddedMembers fits)
    (List.mem_of_getElem? hm) defined

/-- Nothing is recorded for a member that is not defined. -/
theorem WellFormed.placement?_eq_none (wf : h.WellFormed) (fits : h.Fits options root) {m : Member}
    (hm : m ∈ h.paddedMembers root) (missing : m.node.isDefined = false) :
    (h.arrangedCloud options root).placement? m.key = none := by
  simp only [CloudLayout.placement?, arrangedCloud, CloudLayout.ofArrangement,
    List.find?_eq_none, List.mem_map, List.mem_filter]
  rintro _ ⟨m', ⟨hm', defined⟩, rfl⟩ same
  have sep := wf.separate_paddedMembers fits
  rw [sep.keys.eq_of_key hm' hm (beq_iff_eq.mp same), missing] at defined
  cases defined

/-! ## Address points -/

theorem WellFormed.addressPointPosition?_of_place (wf : h.WellFormed) (fits : h.Fits options root)
    {k : Nat} {m : Member} (hm : (h.paddedMembers root)[k]? = some m)
    (defined : m.node.isDefined = true) :
    (h.arrangedCloud options root).addressPointPosition? h (h.key m.id) =
      some (options.strategy.place (h.paddedMembers root) k m.before) := by
  have node := (getElem?_members hm).2.2
  have inside :=
    ((wf.separate_paddedMembers fits).fits m (List.mem_of_getElem? hm) defined).before_lt
  have before : m.pad + m.node.addressOffset = m.before := Nat.add_comm _ _
  rw [CloudLayout.addressPointPosition?, key_of_getElem? hm,
    wf.placement?_arrangedCloud fits hm defined]
  simp [Placement.newIndices, ← node, before, inside]

/-- Every defined member of a cloud has an address point in its table. -/
theorem WellFormed.addressPointPosition?_of_isDefined (wf : h.WellFormed)
    (fits : h.Fits options root) {id : NodeId} (path : h.Descends root id)
    (defined : h.isDefined id = true) :
    (h.arrangedCloud options root).addressPointPosition? h (h.key id) =
      some ((h.arrangedCloud options root).addressPoint h id) := by
  obtain ⟨k, m, hm, rfl, node, defined⟩ := member_of_isDefined path defined
  rw [CloudLayout.addressPoint, wf.addressPointPosition?_of_place fits hm defined]
  rfl

theorem WellFormed.addressPoint_of_place (wf : h.WellFormed) (fits : h.Fits options root)
    {k : Nat} {m : Member} (hm : (h.paddedMembers root)[k]? = some m)
    (defined : m.node.isDefined = true) :
    (h.arrangedCloud options root).addressPoint h m.id =
      options.strategy.place (h.paddedMembers root) k m.before := by
  rw [CloudLayout.addressPoint, wf.addressPointPosition?_of_place fits hm defined]
  rfl

theorem WellFormed.dvd_addressPoint (wf : h.WellFormed) (fits : h.Fits options root) {id : NodeId}
    (path : h.Descends root id) (defined : h.isDefined id = true) :
    (h.arrangedCloud options root).alignment ∣
      (h.arrangedCloud options root).addressPoint h id := by
  obtain ⟨k, m, hm, rfl, node, defined⟩ := member_of_isDefined path defined
  rw [wf.addressPoint_of_place fits hm defined]
  exact (wf.arranges_arrangedCloud fits).aligned k m hm defined

/-- An address point holds the slot that was the address point of its class. -/
theorem WellFormed.getElem?_addressPoint (wf : h.WellFormed) (fits : h.Fits options root)
    {id : NodeId} (path : h.Descends root id) (defined : h.isDefined id = true) :
    (h.arrangedCloud options root).slots[(h.arrangedCloud options root).addressPoint h id]? =
      some (.entry (h.key id) (h.node id).addressPoint) := by
  obtain ⟨k, m, hm, rfl, node, defined⟩ := member_of_isDefined path defined
  have own := (wf.separate_paddedMembers fits).fits m (List.mem_of_getElem? hm) defined
  have placed := (wf.arranges_arrangedCloud fits).placed k m hm defined m.before own.before_lt
  rw [wf.addressPoint_of_place fits hm defined, placed, Member.entry, ← own.addressPoint_eq, node,
    Member.key, node]
  rfl

/-- Different defined members have different address points. -/
theorem WellFormed.addressPoint_inj (wf : h.WellFormed) (fits : h.Fits options root) {a b : NodeId}
    (path : h.Descends root a) (path' : h.Descends root b) (defined : h.isDefined a = true)
    (defined' : h.isDefined b = true)
    (same : (h.arrangedCloud options root).addressPoint h a =
      (h.arrangedCloud options root).addressPoint h b) : a = b := by
  have slot := wf.getElem?_addressPoint fits path defined
  have slot' := wf.getElem?_addressPoint fits path' defined'
  rw [same] at slot
  have key := (Slot.entry.inj (Option.some.inj (slot'.symm.trans slot))).1
  exact wf.key_inj (lt_size_of_isDefined defined) (lt_size_of_isDefined defined') key.symm

theorem WellFormed.addressPoint_lt_length (wf : h.WellFormed) (fits : h.Fits options root)
    {id : NodeId} (path : h.Descends root id) (defined : h.isDefined id = true) :
    (h.arrangedCloud options root).addressPoint h id <
      (h.arrangedCloud options root).slots.length :=
  (List.getElem?_eq_some_iff.mp (wf.getElem?_addressPoint fits path defined)).1

theorem WellFormed.alignment_pos (wf : h.WellFormed) (fits : h.Fits options root) {id : NodeId}
    (path : h.Descends root id) (defined : h.isDefined id = true) :
    0 < (h.arrangedCloud options root).alignment := by
  obtain ⟨k, m, hm, -, -, defined⟩ := member_of_isDefined path defined
  exact (wf.arranges_arrangedCloud fits).positive m (List.mem_of_getElem? hm) defined

/-- The address points of the defined members stand in the order of the preorder. -/
theorem WellFormed.sorted_addressPoints (wf : h.WellFormed) (fits : h.Fits options root) :
    (((h.preorder root).filter (h.isDefined ·)).map
      ((h.arrangedCloud options root).addressPoint h)).Pairwise (· < ·) := by
  rw [List.pairwise_map, List.pairwise_filter, List.pairwise_iff_getElem]
  intro k l hk hl before first second
  obtain ⟨m, hm, id, node⟩ := member_of_place (List.getElem?_eq_getElem hk)
  obtain ⟨m', hm', id', node'⟩ := member_of_place (List.getElem?_eq_getElem hl)
  have defined : m.node.isDefined = true := by rw [node]; exact first
  have defined' : m'.node.isDefined = true := by rw [node']; exact second
  rw [← id, ← id', wf.addressPoint_of_place fits hm defined,
    wf.addressPoint_of_place fits hm' defined']
  exact (wf.arranges_arrangedCloud fits).preordered k l m m' before hm hm' defined defined'

/-- Between two address points, only filler and address points stand at multiples of the
alignment. -/
theorem WellFormed.slot_between (wf : h.WellFormed) (fits : h.Fits options root)
    {lowest highest : NodeId} (below : h.Descends root lowest) (below' : h.Descends root highest)
    (defined : h.isDefined lowest = true) (defined' : h.isDefined highest = true) {p : Nat}
    (aligned : (h.arrangedCloud options root).alignment ∣ p)
    (lo : (h.arrangedCloud options root).addressPoint h lowest ≤ p)
    (hi : p ≤ (h.arrangedCloud options root).addressPoint h highest) :
    (h.arrangedCloud options root).slots[p]? = some .dummy ∨
      ∃ d, h.Descends root d ∧ h.isDefined d = true ∧
        (h.arrangedCloud options root).addressPoint h d = p := by
  have arr := wf.arranges_arrangedCloud fits
  have inside : p < (h.arrangedCloud options root).slots.length :=
    Nat.lt_of_le_of_lt hi (wf.addressPoint_lt_length fits below' defined')
  have here := List.getElem?_eq_getElem inside
  by_cases filler : (h.arrangedCloud options root).slots[p] = .dummy
  · exact Or.inl (by rw [here, filler])
  obtain ⟨k, m, i, hk, path, there, within, eq⟩ :=
    wf.member_of_slot fits (List.getElem_mem inside) filler
  have place : options.strategy.place (h.paddedMembers root) k i = p := by
    have first := arr.once.idxOf?_eq (arr.placed k m hk there i within)
    have second := arr.once.idxOf?_eq (eq ▸ here)
    exact Option.some.inj (first.symm.trans second)
  -- The slot is that of a member. Aligned between two address points, it is one itself.
  obtain ⟨j, x, hx, rfl, -, definedX⟩ := member_of_isDefined below defined
  obtain ⟨l, y, hy, rfl, -, definedY⟩ := member_of_isDefined below' defined'
  rw [wf.addressPoint_of_place fits hx definedX] at lo
  rw [wf.addressPoint_of_place fits hy definedY] at hi
  rw [← place] at aligned lo hi
  obtain rfl := arr.level k j l m x y hk hx hy there definedX definedY i within aligned lo hi
  refine Or.inr ⟨m.id, path, ?_, ?_⟩
  · rw [← isDefined_of_getElem? hk, there]
  · rw [wf.addressPoint_of_place fits hk there, place]

/-! ## Laying out -/

/-- A cloud with words of a positive width is only refused because its numbers do not fit or a
child does not look like its parent. -/
theorem WellFormed.layoutCloud_ok (wf : h.WellFormed) {name : String} {c : CloudLayout} :
    h.layoutCloud options name = .ok c ↔
      0 < options.wordWidth ∧ ∃ id, h.rootId name = .ok id ∧ h.Fits options id ∧
        c = h.arrangedCloud options id ∧ c.checkContainment h = .ok () := by
  simp only [layoutCloud, bind_ok, mapError_ok, LayoutOptions.check_ok]
  constructor
  · rintro ⟨_, ⟨positive, rfl⟩, id, ok, table, made, ⟨⟩, accepted, ⟨⟩, contained, eq⟩
    obtain ⟨lt, key⟩ := wf.rootId_ok ok
    have name : name = (h.key id).className := by rw [key]; rfl
    subst name
    have fits := (wf.fits_iff lt _).mpr ⟨table, made, accepted⟩
    obtain ⟨-, rfl⟩ := Strategy.table_ok.mp made
    obtain rfl := Except.ok.inj eq
    exact ⟨positive, id, ok, fits, rfl, contained⟩
  · rintro ⟨positive, id, ok, fits, rfl, contained⟩
    obtain ⟨lt, key⟩ := wf.rootId_ok ok
    have name : name = (h.key id).className := by rw [key]; rfl
    subst name
    obtain ⟨table, made, accepted⟩ := (wf.fits_iff lt (h.key id).className).mp fits
    obtain ⟨-, rfl⟩ := Strategy.table_ok.mp made
    exact ⟨options, ⟨positive, rfl⟩, id, ok, _, made, (), accepted, (), contained, rfl⟩

end Hierarchy

end VtableCloud
