import VtableCloud.Proofs.Hierarchy.Monotone
import VtableCloud.Proofs.Layouts.Index

/-!
# Every slot has its place

* `Built.translate_inside`, `Built.translate_outside`: an offset from the start of a defined
  sub-vtable is translated just if there is a slot at it;
* `Origin`, `HasOrigin`: what a position of a table holds, and where that comes from;
* `slots_translated`: translation is a bijection between the slots of the defined sub-vtables of
  a cloud and the positions of its table that are neither filler nor padding.
-/

namespace VtableCloud

theorem Member.Fits.entry_pad {m : Member} (own : m.Fits) (offset : Nat) :
    m.entry (m.pad + offset) = .entry m.key (m.node.start + offset) := by
  rw [entry, own.first_eq, Slot.entry.injEq]
  exact ⟨rfl, by omega⟩

namespace Layouts

variable {l : Layouts} {c : CloudLayout} {p : Nat}

/-- Where the slot at a position of a table comes from: nowhere, from the padding in front of
a sub-vtable, or from the slot at an offset from its start. -/
inductive Origin where
  | filler
  | padding (key : SubVtableKey) (index : Int)
  | slot (key : SubVtableKey) (offset : Nat)
  deriving DecidableEq, Repr

/-- The slot at a position of a table comes from an origin. Only ordered tables have filler,
and the slot of a defined sub-vtable stands where it is translated to. -/
inductive HasOrigin (l : Layouts) (c : CloudLayout) (p : Nat) : Origin → Prop
  | filler (ordered : l.options.strategy = .ordered) (here : c.slots[p]? = some .dummy) :
      HasOrigin l c p .filler
  | padding {id : NodeId} {place : Placement} {index : Int}
      (defined : l.hierarchy.isDefined id = true)
      (placed : c.placement? (l.hierarchy.key id) = some place)
      (lo : ((l.hierarchy.node id).start : Int) - place.prePad ≤ index)
      (hi : index < (l.hierarchy.node id).start)
      (here : c.slots[p]? = some (.entry (l.hierarchy.key id) index)) :
      HasOrigin l c p (.padding (l.hierarchy.key id) index)
  | slot {id : NodeId} {offset : Nat} (defined : l.hierarchy.isDefined id = true)
      (within : offset < (l.hierarchy.node id).width) (hosted : l.cloudOf id = .ok c)
      (here : c.slots[p]? =
        some (.entry (l.hierarchy.key id) ((l.hierarchy.node id).start + offset)))
      (translated : l.translate (l.hierarchy.key id) offset false = .ok p) :
      HasOrigin l c p (.slot (l.hierarchy.key id) offset)

/-- No position has two origins. -/
theorem HasOrigin.unique (wf : l.hierarchy.WellFormed) {o o' : Origin} (ho : l.HasOrigin c p o)
    (ho' : l.HasOrigin c p o') : o = o' := by
  -- The slot that stands there tells filler from the rest, the index padding from slots.
  have node {a b : NodeId} (first : l.hierarchy.isDefined a = true)
      (second : l.hierarchy.isDefined b = true)
      (same : l.hierarchy.key a = l.hierarchy.key b) : a = b :=
    wf.key_inj (Hierarchy.lt_size_of_isDefined first) (Hierarchy.lt_size_of_isDefined second) same
  cases ho with
  | filler _ here =>
    cases ho' with
    | filler => rfl
    | padding _ _ _ _ here' | slot _ _ _ here' _ =>
      rw [here] at here'
      cases here'
  | padding defined _ _ hi here =>
    cases ho' with
    | filler _ here' =>
      rw [here] at here'
      cases here'
    | padding _ _ _ _ here' =>
      rw [here] at here'
      obtain ⟨key, index⟩ := Slot.entry.inj (Option.some.inj here')
      rw [key, index]
    | slot defined' _ _ here' _ =>
      rw [here] at here'
      obtain ⟨key, index⟩ := Slot.entry.inj (Option.some.inj here')
      obtain rfl := node defined defined' key
      omega
  | slot defined _ _ here _ =>
    cases ho' with
    | filler _ here' =>
      rw [here] at here'
      cases here'
    | padding defined' _ _ hi here' =>
      rw [here] at here'
      obtain ⟨key, index⟩ := Slot.entry.inj (Option.some.inj here')
      obtain rfl := node defined defined' key
      omega
    | slot defined' _ _ here' _ =>
      rw [here] at here'
      obtain ⟨key, index⟩ := Slot.entry.inj (Option.some.inj here')
      obtain rfl := node defined defined' key
      rw [Origin.slot.injEq]
      exact ⟨rfl, by omega⟩

namespace Built

variable {id : NodeId}

theorem translate_outside (built : l.Built) (defined : l.hierarchy.isDefined id = true)
    {offset : Int} (outside : offset < 0 ∨ ((l.hierarchy.node id).width : Int) ≤ offset) :
    l.translate (l.hierarchy.key id) offset false =
      .error (.indexOutOfRange (l.hierarchy.key id) offset (l.hierarchy.node id).width) := by
  obtain ⟨k, m, hm, rfl, node, here⟩ := built.member_of_isDefined defined
  have lt := Hierarchy.lt_size_of_isDefined defined
  rw [← node] at outside ⊢
  rw [Hierarchy.key_of_getElem? hm, built.translate_absolute lt hm here, if_pos outside]

/-- A slot of a defined sub-vtable stands where it is translated to. -/
theorem translate_inside (built : l.Built) (defined : l.hierarchy.isDefined id = true)
    {offset : Nat} (inside : offset < (l.hierarchy.node id).width) :
    ∃ p : Nat, l.translate (l.hierarchy.key id) offset false = .ok p ∧
      (l.arrangedCloud id).slots[p]? =
        some (.entry (l.hierarchy.key id) ((l.hierarchy.node id).start + offset)) := by
  obtain ⟨k, m, hm, rfl, node, here⟩ := built.member_of_isDefined defined
  have lt := Hierarchy.lt_size_of_isDefined defined
  have arranged := built.wf.arranges_arrangedCloud (built.fits m.id lt)
  have own := built.member_fits lt hm here
  rw [← node] at inside ⊢
  have within : m.pad + offset < m.extent := by
    rw [own.extent_eq_width]
    omega
  refine ⟨l.place m.id k (m.pad + offset), ?_, ?_⟩
  · rw [Hierarchy.key_of_getElem? hm, built.translate_absolute lt hm here, if_neg (by omega)]
    rfl
  · rw [Hierarchy.key_of_getElem? hm, ← own.entry_pad]
    exact arranged.placed k m hm here _ within

/-- Only a slot of the sub-vtable is translated, and it stands where it is translated to. -/
theorem slot_of_translate (built : l.Built) (defined : l.hierarchy.isDefined id = true)
    {offset position : Int}
    (translated : l.translate (l.hierarchy.key id) offset false = .ok position) :
    ∃ o : Nat, offset = o ∧ o < (l.hierarchy.node id).width ∧ ∃ p : Nat, position = p ∧
      (l.arrangedCloud id).slots[p]? =
        some (.entry (l.hierarchy.key id) ((l.hierarchy.node id).start + o)) := by
  by_cases outside : offset < 0 ∨ ((l.hierarchy.node id).width : Int) ≤ offset
  · rw [built.translate_outside defined outside] at translated
    cases translated
  · obtain ⟨o, rfl⟩ := Int.eq_ofNat_of_zero_le (a := offset) (by omega)
    have inside : o < (l.hierarchy.node id).width := by omega
    obtain ⟨p, ok, here⟩ := built.translate_inside defined inside
    exact ⟨o, rfl, inside, p, Except.ok.inj (translated.symm.trans ok), here⟩

/-- Two slots of one table are not translated to the same position. -/
theorem translate_inj (built : l.Built) {id' : NodeId} (defined : l.hierarchy.isDefined id = true)
    (defined' : l.hierarchy.isDefined id' = true) (hosted : l.cloudOf id = .ok c)
    (hosted' : l.cloudOf id' = .ok c) {offset offset' position : Int}
    (translated : l.translate (l.hierarchy.key id) offset false = .ok position)
    (translated' : l.translate (l.hierarchy.key id') offset' false = .ok position) :
    id = id' ∧ offset = offset' := by
  have lt := Hierarchy.lt_size_of_isDefined defined
  have lt' := Hierarchy.lt_size_of_isDefined defined'
  obtain rfl := Except.ok.inj ((built.cloudOf id lt).symm.trans hosted)
  have same := Except.ok.inj ((built.cloudOf id' lt').symm.trans hosted')
  obtain ⟨o, rfl, -, p, rfl, here⟩ := built.slot_of_translate defined translated
  obtain ⟨o', rfl, -, p', eq, here'⟩ := built.slot_of_translate defined' translated'
  obtain rfl : p = p' := by omega
  rw [same, here] at here'
  obtain ⟨key, index⟩ := Slot.entry.inj (Option.some.inj here')
  obtain rfl := built.wf.key_inj lt lt' key
  exact ⟨rfl, by omega⟩

/-- A slot of a member is padding in front of the member's node or one of the node's slots. -/
theorem origin_of_member (built : l.Built) (lt : id < l.hierarchy.size) {k : Nat} {m : Member}
    (hm : (l.members id)[k]? = some m) (defined : m.node.isDefined = true) {i : Nat}
    (within : i < m.extent) (here : (l.arrangedCloud id).slots[p]? = some (m.entry i)) :
    ∃ o, l.HasOrigin (l.arrangedCloud id) p o := by
  have fits := built.fits id lt
  have own := built.member_fits lt hm defined
  obtain ⟨hid, -, node⟩ := Hierarchy.getElem?_members hm
  have key : l.hierarchy.key m.id = m.key := Hierarchy.key_of_getElem? hm
  have definedNode : l.hierarchy.isDefined m.id = true := by
    rw [← Hierarchy.isDefined_of_getElem? hm, defined]
  rcases Nat.lt_or_ge i m.pad with front | back
  · have placed : (l.arrangedCloud id).placement? m.key = some ⟨m.key, m.id, m.pad, _⟩ :=
      built.wf.placement?_arrangedCloud fits hm defined
    have first := own.first_eq
    rw [Member.entry, ← key] at here
    rw [← key] at placed
    refine ⟨_, .padding definedNode placed ?_ ?_ here⟩
    · rw [← node]
      show (m.node.start : Int) - m.pad ≤ m.first + i
      omega
    · rw [← node]
      omega
  · obtain ⟨offset, rfl⟩ := Nat.exists_eq_add_of_le back
    have width : offset < (l.hierarchy.node m.id).width := by
      rw [own.extent_eq_width] at within
      rw [← node]
      omega
    have path := Hierarchy.mem_preorder.mp (List.mem_of_getElem? hid)
    have same : l.arrangedCloud m.id = l.arrangedCloud id := by
      rw [arrangedCloud, arrangedCloud, built.wf.cloudRoot_of_descends path,
        built.wf.cloudRoot_parentless _ (built.wf.cloudRoot_spec id).1]
    have hosted := built.cloudOf m.id (Hierarchy.lt_size_of_isDefined definedNode)
    obtain ⟨p', translated, there⟩ := built.translate_inside definedNode width
    rw [same] at hosted there
    -- The slot stands in the table once, so it is translated to the position it was found at.
    have found := there
    rw [key, ← node, ← own.entry_pad] at found
    have once := (built.wf.arranges_arrangedCloud fits).once
    obtain rfl : p' = p :=
      Option.some.inj ((once.idxOf?_eq found).symm.trans (once.idxOf?_eq here))
    exact ⟨_, .slot definedNode width hosted there translated⟩

/-- Each position of a table has an origin. -/
theorem exists_origin (built : l.Built) (lt : id < l.hierarchy.size)
    (hp : p < (l.arrangedCloud id).slots.length) :
    ∃ o, l.HasOrigin (l.arrangedCloud id) p o := by
  have fits := built.fits id lt
  have here := List.getElem?_eq_getElem hp
  by_cases filler : (l.arrangedCloud id).slots[p] = .dummy
  · refine ⟨.filler, .filler ?_ (by rw [here, filler])⟩
    cases strategy : l.options.strategy with
    | ordered => rfl
    | interleaved =>
      have mem := List.getElem_mem hp
      rw [filler, arrangedCloud, Hierarchy.arrangedCloud, CloudLayout.ofArrangement,
        strategy] at mem
      obtain ⟨m, -, -, i, -, eq⟩ :=
        mem_interleaved (built.wf.separate_paddedMembers fits).fits mem
      exact absurd eq.symm (m.entry_ne_dummy i)
  · obtain ⟨k, m, i, hk, -, defined, within, eq⟩ :=
      built.wf.member_of_slot fits (List.getElem_mem hp) filler
    rw [eq] at here
    exact built.origin_of_member lt hk defined within here

end Built

/-- Each layout is that of the cloud of a node. -/
theorem arrangedCloud_of_mem {h : Hierarchy} {options : LayoutOptions} (wf : h.WellFormed)
    (laid : build h options = .ok l) (hc : c ∈ l.clouds) :
    ∃ id < l.hierarchy.size, c = l.arrangedCloud id := by
  obtain ⟨-, rfl, rfl, laid⟩ := build_ok.mp laid
  obtain ⟨name, hr, ok⟩ := mapM_ok_mem laid hc
  obtain ⟨-, id, root, -, rfl, -⟩ := wf.layoutCloud_ok.mp (wf.layoutCheckedCloud_ok.mp ok)
  obtain ⟨id', lt, root', -, self⟩ := wf.rootId_of_mem hr
  obtain rfl := Except.ok.inj (root'.symm.trans root)
  exact ⟨id', lt, by rw [arrangedCloud, self]⟩

end Layouts

/-- No slot is lost, doubled or invented. Each slot of a defined sub-vtable is translated to
where its table holds it, and an offset that has no slot is refused. No two slots of a table
are translated to one position. Each position of a table is either filler, which only ordered
tables have, or padding of one defined sub-vtable, or what one slot is translated to. -/
theorem slots_translated {records : List ClassRecord} {h : Hierarchy} {options : LayoutOptions}
    {l : Layouts} (ingested : Hierarchy.ofRecords records = .ok h)
    (laid : Layouts.build h options = .ok l) :
    (∀ id, h.isDefined id = true → ∃ c ∈ l.clouds, l.cloudOf id = .ok c ∧
      (∀ offset : Nat, offset < (h.node id).width → ∃ p : Nat,
        l.translate (h.key id) offset false = .ok p ∧
          c.slots[p]? = some (.entry (h.key id) ((h.node id).start + offset))) ∧
      ∀ offset : Int, offset < 0 ∨ ((h.node id).width : Int) ≤ offset →
        l.translate (h.key id) offset false =
          .error (.indexOutOfRange (h.key id) offset (h.node id).width)) ∧
    (∀ id id' c offset offset' position, h.isDefined id = true → h.isDefined id' = true →
      l.cloudOf id = .ok c → l.cloudOf id' = .ok c →
      l.translate (h.key id) offset false = .ok position →
      l.translate (h.key id') offset' false = .ok position → id = id' ∧ offset = offset') ∧
    ∀ c ∈ l.clouds, ∀ p < c.slots.length, ∃! origin, l.HasOrigin c p origin := by
  have wf := Hierarchy.wellFormed_of_ofRecords ingested
  obtain ⟨built, rfl, rfl⟩ := Layouts.built_of_build wf laid
  refine ⟨?_, ?_, ?_⟩
  · intro id defined
    have lt := Hierarchy.lt_size_of_isDefined defined
    exact ⟨_, built.hosted id lt, built.cloudOf id lt,
      fun offset inside => built.translate_inside defined inside,
      fun offset outside => built.translate_outside defined outside⟩
  · intro id id' c offset offset' position defined defined' hosted hosted' translated translated'
    exact built.translate_inj defined defined' hosted hosted' translated translated'
  · intro c hc p hp
    obtain ⟨id, lt, rfl⟩ := Layouts.arrangedCloud_of_mem wf laid hc
    obtain ⟨o, origin⟩ := built.exists_origin lt hp
    exact ⟨o, origin, fun o' other => other.unique wf origin⟩

/-- The table of the diamond holds one slot of padding, that in front of `Tip`. -/
theorem diamond_slots_translated :
    ∃ l c, Layouts.build Diamond.hierarchy ⟨.ordered, 8⟩ = .ok l ∧ l.cloudOf 3 = .ok c ∧
      c.slots[13]? = some (.entry (.primary "Tip") (-1)) ∧
      l.translate (.primary "Tip") (-1) false =
        .error (.indexOutOfRange (.primary "Tip") (-1) 5) ∧
      ∀ p < c.slots.length, ∃! origin, l.HasOrigin c p origin := by
  obtain ⟨l, laid⟩ : ∃ l, Layouts.build Diamond.hierarchy ⟨.ordered, 8⟩ = .ok l := ⟨_, rfl⟩
  obtain ⟨each, -, origins⟩ := slots_translated Diamond.ofRecords_records laid
  obtain ⟨c, hc, hosted, -, outside⟩ := each 3 rfl
  have padding : c.slots[13]? = some (.entry (.primary "Tip") (-1)) := by
    obtain rfl := Except.ok.inj laid
    obtain rfl := Except.ok.inj hosted
    rfl
  exact ⟨l, c, laid, hosted, padding, outside (-1) (by decide), origins c hc⟩

end VtableCloud
