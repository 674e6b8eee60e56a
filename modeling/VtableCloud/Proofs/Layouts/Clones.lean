import VtableCloud.Proofs.Layouts.Contents

/-!
# Clones of virtual thunks

A thunk may stand in many slots of a cloud, and its one clone stands in all of their new places.

* `mem_foldl_addClone`, `nodup_foldl_addClone`: of the clones that slots call for, the first of
  each name is listed;
* `Hierarchy.OldSlot`: what the vtable of a defined class held;
* `mem_thunks`: a clone is listed for the first slot, in the order of the table, that held its
  thunk;
* `CloudLayout.ListsThunks`: a table that lists just the clones that stand in it;
* `materialize_clones`: every table that is filled is of this kind.
-/

namespace VtableCloud

/-! ## Adding clones -/

theorem mem_addClone {clones : List ThunkClone} {t x : ThunkClone} :
    x ∈ addClone clones t ↔ x ∈ clones ∨ x = t ∧ ∀ y ∈ clones, y.clone ≠ t.clone := by
  unfold addClone
  by_cases known : clones.any (·.clone == t.clone) = true
  · rw [if_pos known, or_iff_left]
    rintro ⟨-, new⟩
    obtain ⟨y, hy, same⟩ := List.any_eq_true.mp known
    exact new y hy (beq_iff_eq.mp same)
  · rw [if_neg known, List.mem_append, List.mem_singleton, and_iff_left]
    intro y hy same
    exact known (List.any_eq_true.mpr ⟨y, hy, beq_iff_eq.mpr same⟩)

theorem nodup_addClone {clones : List ThunkClone} (once : (clones.map (·.clone)).Nodup)
    (t : ThunkClone) : ((addClone clones t).map (·.clone)).Nodup := by
  unfold addClone
  by_cases known : clones.any (·.clone == t.clone) = true
  · rw [if_pos known]
    exact once
  · rw [if_neg known, List.map_append, List.map_singleton, ← List.concat_eq_append,
      List.nodup_concat]
    refine ⟨?_, once⟩
    simpa using known

theorem nodup_foldl_addClone (found : List ThunkClone) :
    ((found.foldl addClone []).map (·.clone)).Nodup := by
  induction found using List.reverseRecOn with
  | nil => exact List.nodup_nil
  | append_singleton found t ih =>
    rw [List.foldl_append]
    exact nodup_addClone ih t

theorem exists_addClone {clones : List ThunkClone} {t : ThunkClone} {name : String} :
    (∃ x ∈ addClone clones t, x.clone = name) ↔
      (∃ x ∈ clones, x.clone = name) ∨ t.clone = name := by
  unfold addClone
  by_cases known : clones.any (·.clone == t.clone) = true
  · rw [if_pos known, iff_self_or]
    rintro rfl
    obtain ⟨y, hy, same⟩ := List.any_eq_true.mp known
    exact ⟨y, hy, beq_iff_eq.mp same⟩
  · rw [if_neg known]
    simp only [List.mem_append, List.mem_singleton, or_and_right, exists_or, exists_eq_left]

/-- No name is lost, and none is made up. -/
theorem exists_foldl_addClone {found : List ThunkClone} {name : String} :
    (∃ x ∈ found.foldl addClone [], x.clone = name) ↔ ∃ x ∈ found, x.clone = name := by
  induction found using List.reverseRecOn with
  | nil => rfl
  | append_singleton found t ih =>
    rw [List.foldl_append, List.foldl_cons, List.foldl_nil, exists_addClone, ih]
    simp only [List.mem_append, List.mem_singleton, or_and_right, exists_or, exists_eq_left]

/-- A clone is listed just if none of its name is called for before it. -/
theorem mem_foldl_addClone {found : List ThunkClone} {x : ThunkClone} :
    x ∈ found.foldl addClone [] ↔
      ∃ before after, found = before ++ x :: after ∧ ∀ y ∈ before, y.clone ≠ x.clone := by
  induction found using List.reverseRecOn with
  | nil => simp
  | append_singleton found t ih =>
    have names : (∃ y ∈ found.foldl addClone [], y.clone = t.clone) ↔
        ∃ y ∈ found, y.clone = t.clone := exists_foldl_addClone
    have new : (∀ y ∈ found.foldl addClone [], y.clone ≠ t.clone) ↔
        ∀ y ∈ found, y.clone ≠ t.clone := by
      simpa using names.not
    rw [List.foldl_append, List.foldl_cons, List.foldl_nil, mem_addClone, new, ih]
    constructor
    · rintro (⟨before, after, rfl, first⟩ | ⟨rfl, first⟩)
      · exact ⟨before, after ++ [t], by simp, first⟩
      · exact ⟨found, [], rfl, first⟩
    · -- The split lies behind the last clone or before it.
      rintro ⟨before, after, split, first⟩
      obtain rfl | ⟨after, last, rfl⟩ := after.eq_nil_or_concat
      · obtain ⟨rfl, last⟩ := List.append_inj' split rfl
        obtain rfl := List.singleton_inj.mp last
        exact .inr ⟨rfl, first⟩
      · rw [List.concat_eq_append, ← List.cons_append, ← List.append_assoc] at split
        obtain ⟨rfl, -⟩ := List.append_inj' split rfl
        exact .inl ⟨before, after, rfl, first⟩

/-! ## The slots of a cloud -/

theorem cloneSymbol_inj {root s s' : String} :
    cloneSymbol root s = cloneSymbol root s' ↔ s = s' := by
  unfold cloneSymbol
  rw [String.append_right_inj]

theorem cloneSymbol_ne (root s : String) : cloneSymbol root s ≠ s := by
  intro same
  have length := congrArg String.length same
  simp [cloneSymbol] at length

theorem thunkClone?_eq_some {root : String} {slot : Slot} {e : Element} {x : ThunkClone} :
    thunkClone? root (slot, e) = some x ↔
      (∃ index, slot = .entry x.key index) ∧ e = .function x.thunk ∧
        isVirtualThunkSymbol x.thunk = true ∧ x.clone = cloneSymbol root x.thunk ∧
        x.layoutClass = root := by
  constructor
  · intro called
    cases slot with
    | dummy => cases called
    | entry key index =>
      cases e with
      | null | offset | rtti => cases called
      | function symbol =>
        obtain ⟨virtual, eq⟩ := Option.ite_none_right_eq_some.mp called
        obtain rfl := Option.some.inj eq
        exact ⟨⟨_, rfl⟩, rfl, virtual, rfl, rfl⟩
  · rintro ⟨⟨index, rfl⟩, rfl, virtual, clone, rfl⟩
    apply (if_pos virtual).trans
    rw [← clone]

/-- A defined sub-vtable has a slot at an index of the vtable of its class, which holds an
element. -/
structure Hierarchy.OldSlot (h : Hierarchy) (id : NodeId) (index : Nat) (e : Element) : Prop where
  defined : h.isDefined id = true
  start_le : (h.node id).start ≤ index
  le_last : index ≤ (h.node id).last
  holds : h.element? (h.key id).className index = some e

namespace Hierarchy

variable {h : Hierarchy} {root id : NodeId} {options : LayoutOptions} {index : Nat} {e : Element}

theorem OldSlot.slotElement (old : h.OldSlot id index e) (wf : h.WellFormed) (root : String) :
    h.slotElement root (.entry (h.key id) index) = .ok e := by
  obtain ⟨e', holds, ok⟩ := wf.slotElement_of_le old.defined old.start_le old.le_last root
  obtain rfl := Option.some.inj (old.holds.symm.trans holds)
  exact ok

namespace WellFormed

/-- A slot of a defined class that descends from a root has a place in the table of the root. -/
theorem place_of_oldSlot (wf : h.WellFormed) (fits : h.Fits options root)
    (path : h.Descends root id) (old : h.OldSlot id index e) :
    ∃ p : Nat, (h.arrangedCloud options root).slots[p]? = some (.entry (h.key id) index) := by
  obtain ⟨k, m, hm, rfl, node, defined⟩ := member_of_isDefined path old.defined
  obtain ⟨offset, rfl⟩ := Nat.exists_eq_add_of_le old.start_le
  have own := (wf.separate_paddedMembers fits).fits m (List.mem_of_getElem? hm) defined
  have within : m.pad + offset < m.extent := by
    have last := old.le_last
    rw [own.extent_eq_width, Node.width, node]
    omega
  have placed := (wf.arranges_arrangedCloud fits).placed k m hm defined _ within
  rw [own.entry_pad, node, ← key_of_getElem? hm] at placed
  exact ⟨_, placed⟩

/-- A table has no slots but those of nodes that descend from its root. -/
theorem descends_of_entry (wf : h.WellFormed) (fits : h.Fits options root) {index : Int}
    (hid : id < h.size) (here : .entry (h.key id) index ∈ (h.arrangedCloud options root).slots) :
    h.Descends root id := by
  obtain ⟨k, m, i, hk, path, -, -, entry⟩ := wf.member_of_slot fits here nofun
  have key : h.key id = h.key m.id := (Slot.entry.inj entry).1.trans (key_of_getElem? hk).symm
  rw [wf.key_inj hid (wf.lt_size_of_descends path fits.lt) key]
  exact path

/-- In memory, the slots of a table are null but for those of defined classes. -/
theorem slotElement_cases (wf : h.WellFormed) (fits : h.Fits options root) (inMemory : h.InMemory)
    {slot : Slot} (hs : slot ∈ (h.arrangedCloud options root).slots) (name : String) :
    h.slotElement name slot = .ok .null ∨ ∃ (id : NodeId) (index : Nat) (e : Element),
      slot = .entry (h.key id) index ∧ h.OldSlot id index e := by
  by_cases filler : slot = .dummy
  · exact .inl (filler ▸ rfl)
  obtain ⟨k, m, i, hk, -, here, within, rfl⟩ := wf.member_of_slot fits hs filler
  have own := (wf.separate_paddedMembers fits).fits m (List.mem_of_getElem? hk) here
  have node := (getElem?_members hk).2.2
  rw [isDefined_of_getElem? hk] at here
  have inside := lt_size_of_isDefined here
  rcases Nat.lt_or_ge i m.pad with front | back
  · apply Or.inl
    rw [Member.entry, ← key_of_getElem? hk]
    apply wf.slotElement_padding inside
    rw [wf.signedWord_start inMemory here, ← node, own.first_eq]
    omega
  · obtain ⟨offset, rfl⟩ := Nat.exists_eq_add_of_le back
    have last : (h.node m.id).start + offset ≤ (h.node m.id).last := by
      have ordered := wf.pointed inside
      rw [own.extent_eq_width, Node.width, node] at within
      omega
    obtain ⟨e, holds⟩ := wf.element?_of_le here last
    refine .inr ⟨m.id, _, e, ?_, here, Nat.le_add_right _ _, last, holds⟩
    rw [own.entry_pad, node, key_of_getElem? hk]
    rfl

end WellFormed

end Hierarchy

/-- A position of a table takes its element from a slot of a defined sub-vtable. -/
def CloudLayout.Takes (c : CloudLayout) (h : Hierarchy) (p : Nat) (id : NodeId) (e : Element) :
    Prop :=
  ∃ index : Nat, c.slots[p]? = some (.entry (h.key id) index) ∧ h.OldSlot id index e

/-- A table lists the clones that stand in it, each once. They are those of the virtual thunks
that defined members of the cloud had in their slots. A thunk is found in the member that owns
the first position to take it, and no position that takes it keeps it. -/
structure CloudLayout.ListsThunks (c : CloudLayout) (h : Hierarchy) (t : Table) : Prop where
  distinct : (t.thunks.map (·.clone)).Nodup
  listed : ∀ symbol, symbol ∈ t.thunks.map (·.thunk) ↔ isVirtualThunkSymbol symbol = true ∧
    ∃ d ∈ c.preorder, ∃ index, h.OldSlot d index (.function symbol)
  cloned : ∀ x ∈ t.thunks, x.clone = "_SVT" ++ c.root ++ x.thunk ∧ x.layoutClass = c.root ∧
    .function x.clone ∈ t.elements
  first : ∀ x ∈ t.thunks, ∃ p id, x.key = h.key id ∧ c.Takes h p id (.function x.thunk) ∧
    ∀ q < p, ∀ id', ¬ c.Takes h q id' (.function x.thunk)
  replaced : ∀ p id symbol, c.Takes h p id (.function symbol) →
    isVirtualThunkSymbol symbol = true → ∃ x ∈ t.thunks, x.thunk = symbol ∧ x.clone ≠ symbol ∧
      t.elements[p]? = some (.function x.clone)

/-! ## Filling a table -/

section Filled

variable {h : Hierarchy} {root : NodeId} {options : LayoutOptions} {t : Table}

/-- The elements that positions of a filled table take are those of its slots, renamed. -/
theorem element_of_takes (wf : h.WellFormed) {c : CloudLayout} (filled : materialize h c = .ok t)
    {p : Nat} {id : NodeId} {e : Element} (takes : c.Takes h p id e) :
    t.elements[p]? = some (e.renamed c.root) := by
  obtain ⟨index, here, old⟩ := takes
  obtain ⟨e', element, there⟩ := (materialize_ok filled).2 p _ here
  obtain rfl := Except.ok.inj ((old.slotElement wf c.root).symm.trans element)
  exact there

/-- A slot calls for a clone just if it held a virtual thunk. -/
theorem called_iff (wf : h.WellFormed) (fits : h.Fits options root) (inMemory : h.InMemory)
    {old : List Element} {name : String}
    (filled : (h.arrangedCloud options root).slots.mapM (h.slotElement name) = .ok old)
    {p : Nat} {x : ThunkClone} :
    ((h.arrangedCloud options root).slots.zip old)[p]?.bind (thunkClone? name) = some x ↔
      (∃ id, x.key = h.key id ∧ (h.arrangedCloud options root).Takes h p id (.function x.thunk)) ∧
        isVirtualThunkSymbol x.thunk = true ∧ x.clone = cloneSymbol name x.thunk ∧
        x.layoutClass = name := by
  rw [Option.bind_eq_some_iff]
  constructor
  · rintro ⟨⟨slot, e⟩, here, called⟩
    obtain ⟨hs, he⟩ := List.getElem?_zip_eq_some.mp here
    obtain ⟨⟨index, rfl⟩, rfl, rest⟩ := thunkClone?_eq_some.mp called
    obtain ⟨e, he', element⟩ := (mapM_ok filled).2 p _ hs
    obtain rfl := Option.some.inj (he.symm.trans he')
    obtain null | ⟨id, index', e, entry, held⟩ :=
      wf.slotElement_cases fits inMemory (List.mem_of_getElem? hs) name
    · cases null.symm.trans element
    · rw [entry] at hs element
      obtain rfl := Except.ok.inj ((held.slotElement wf name).symm.trans element)
      exact ⟨⟨id, (Slot.entry.inj entry).1, index', hs, held⟩, rest⟩
  · rintro ⟨⟨id, key, index, hs, held⟩, rest⟩
    obtain ⟨e, he, element⟩ := (mapM_ok filled).2 p _ hs
    obtain rfl := Except.ok.inj ((held.slotElement wf name).symm.trans element)
    refine ⟨_, List.getElem?_zip_eq_some.mpr ⟨hs, he⟩, thunkClone?_eq_some.mpr ?_⟩
    exact ⟨⟨index, by rw [key]⟩, rfl, rest⟩

/-- A clone is listed for the first slot, in the order of the table, that held its thunk. -/
theorem mem_thunks (wf : h.WellFormed) (fits : h.Fits options root) (inMemory : h.InMemory)
    (filled : materialize h (h.arrangedCloud options root) = .ok t) {x : ThunkClone} :
    let c := h.arrangedCloud options root
    x ∈ t.thunks ↔ isVirtualThunkSymbol x.thunk = true ∧ x.clone = cloneSymbol c.root x.thunk ∧
      x.layoutClass = c.root ∧ ∃ p id, x.key = h.key id ∧ c.Takes h p id (.function x.thunk) ∧
        ∀ q < p, ∀ id', ¬ c.Takes h q id' (.function x.thunk) := by
  intro c
  obtain ⟨old, elements, eq⟩ := bind_ok.mp filled
  obtain rfl := Except.ok.inj eq
  rw [mem_foldl_addClone, filterMap_first_iff]
  simp only [called_iff wf fits inMemory elements]
  constructor
  · rintro ⟨p, ⟨⟨id, key, takes⟩, virtual, clone, layoutClass⟩, first⟩
    refine ⟨virtual, clone, layoutClass, p, id, key, takes, fun q before id' earlier => ?_⟩
    exact first q before ⟨x.thunk, x.clone, c.root, h.key id'⟩
      ⟨⟨id', rfl, earlier⟩, virtual, clone, rfl⟩ rfl
  · rintro ⟨virtual, clone, layoutClass, p, id, key, takes, first⟩
    refine ⟨p, ⟨⟨id, key, takes⟩, virtual, clone, layoutClass⟩, ?_⟩
    rintro q before y ⟨⟨id', -, earlier⟩, -, named, -⟩ same
    rw [named, clone, cloneSymbol_inj] at same
    exact first q before id' (same ▸ earlier)

/-- The clone of a thunk is listed wherever the thunk is taken. -/
theorem exists_mem_thunks (wf : h.WellFormed) (fits : h.Fits options root) (inMemory : h.InMemory)
    (filled : materialize h (h.arrangedCloud options root) = .ok t) {p : Nat} {id : NodeId}
    {symbol : String} (virtual : isVirtualThunkSymbol symbol = true)
    (takes : (h.arrangedCloud options root).Takes h p id (.function symbol)) :
    ∃ x ∈ t.thunks, x.thunk = symbol := by
  classical
  have taken : ∃ p id, (h.arrangedCloud options root).Takes h p id (.function symbol) :=
    ⟨p, id, takes⟩
  obtain ⟨owner, first⟩ := Nat.find_spec taken
  have earliest : ∀ q < Nat.find taken, ∀ id',
      ¬ (h.arrangedCloud options root).Takes h q id' (.function symbol) :=
    fun q before id' earlier => Nat.find_min taken before ⟨id', earlier⟩
  let clone : ThunkClone := ⟨symbol, cloneSymbol (h.key root).className symbol,
    (h.key root).className, h.key owner⟩
  have listed := (mem_thunks wf fits inMemory filled (x := clone)).mpr
    ⟨virtual, rfl, rfl, Nat.find taken, owner, rfl, first, earliest⟩
  exact ⟨clone, listed, rfl⟩

theorem listsThunks (wf : h.WellFormed) (fits : h.Fits options root) (inMemory : h.InMemory)
    (filled : materialize h (h.arrangedCloud options root) = .ok t) :
    (h.arrangedCloud options root).ListsThunks h t := by
  constructor
  case distinct =>
    obtain ⟨old, -, eq⟩ := bind_ok.mp filled
    obtain rfl := Except.ok.inj eq
    exact nodup_foldl_addClone _
  case listed =>
    intro symbol
    rw [List.mem_map]
    constructor
    · rintro ⟨x, hx, rfl⟩
      obtain ⟨virtual, -, -, p, id, -, ⟨index, here, old⟩, -⟩ :=
        (mem_thunks wf fits inMemory filled).mp hx
      have inside := Hierarchy.lt_size_of_isDefined old.defined
      have path := wf.descends_of_entry fits inside (List.mem_of_getElem? here)
      rw [Hierarchy.preorder_arrangedCloud]
      exact ⟨virtual, id, Hierarchy.mem_preorder.mpr path, index, old⟩
    · rintro ⟨virtual, d, hd, index, old⟩
      rw [Hierarchy.preorder_arrangedCloud, Hierarchy.mem_preorder] at hd
      obtain ⟨p, here⟩ := wf.place_of_oldSlot fits hd old
      exact exists_mem_thunks wf fits inMemory filled virtual ⟨index, here, old⟩
  case cloned =>
    intro x hx
    obtain ⟨virtual, clone, layoutClass, p, id, -, takes, -⟩ :=
      (mem_thunks wf fits inMemory filled).mp hx
    have element := element_of_takes wf filled takes
    rw [Element.renamed, if_pos virtual, ← clone] at element
    exact ⟨clone, layoutClass, List.mem_of_getElem? element⟩
  case first =>
    intro x hx
    exact ((mem_thunks wf fits inMemory filled).mp hx).2.2.2
  case replaced =>
    intro p id symbol takes virtual
    obtain ⟨x, hx, rfl⟩ := exists_mem_thunks wf fits inMemory filled virtual takes
    have clone := ((mem_thunks wf fits inMemory filled).mp hx).2.1
    have element := element_of_takes wf filled takes
    rw [Element.renamed, if_pos virtual, ← clone] at element
    exact ⟨x, hx, rfl, clone ▸ cloneSymbol_ne _ _, element⟩

end Filled

/-- If the old vtables are in memory, the table of each cloud that is laid out can be filled, and
it lists the clones that stand in it: one for each virtual thunk that a defined member of the cloud
had in its slots, found in the member that owns the first position to take it. Every position
that takes a virtual thunk holds its clone. -/
theorem materialize_clones {records : List ClassRecord} {h : Hierarchy} {options : LayoutOptions}
    {root : String} {c : CloudLayout} (ingested : Hierarchy.ofRecords records = .ok h)
    (inMemory : h.InMemory) (laid : h.layoutCloud options root = .ok c) :
    ∃ t, materialize h c = .ok t ∧ c.ListsThunks h t := by
  have wf := Hierarchy.wellFormed_of_ofRecords ingested
  obtain ⟨-, id, -, fits, rfl, -⟩ := wf.layoutCloud_ok.mp laid
  obtain ⟨t, filled⟩ : ∃ t, materialize h (h.arrangedCloud options id) = .ok t := by
    apply materialize_of_forall
    intro slot hs
    obtain null | ⟨d, index, e, rfl, old⟩ := wf.slotElement_cases fits inMemory hs _
    · exact ⟨_, null⟩
    · exact ⟨e, old.slotElement wf _⟩
  exact ⟨t, filled, listsThunks wf fits inMemory filled⟩

/-- The thunk of `Tip` is listed. -/
theorem diamond_clones : ∃ c t, Diamond.hierarchy.layoutCloud ⟨.interleaved, 8⟩ "Base" = .ok c ∧
    materialize Diamond.hierarchy c = .ok t ∧ c.ListsThunks Diamond.hierarchy t ∧
    "_ZTv0_n24_N3Tip1gEv" ∈ t.thunks.map (·.thunk) := by
  obtain ⟨c, laid⟩ : ∃ c, Diamond.hierarchy.layoutCloud ⟨.interleaved, 8⟩ "Base" = .ok c :=
    ⟨_, rfl⟩
  obtain ⟨t, filled, lists⟩ :=
    materialize_clones Diamond.ofRecords_records (by decide +kernel) laid
  have member : 3 ∈ c.preorder := by
    obtain rfl := Except.ok.inj laid
    decide +kernel
  have held : Diamond.hierarchy.OldSlot 3 3 (.function "_ZTv0_n24_N3Tip1gEv") :=
    ⟨by decide +kernel, by decide +kernel, by decide +kernel, by decide +kernel⟩
  have listed := (lists.listed _).mpr ⟨by decide +kernel, 3, member, 3, held⟩
  exact ⟨c, t, laid, filled, lists, listed⟩

end VtableCloud
