import VtableCloud.Proofs.Layout.Containment

/-!
# Lookups that have to find something

Nodes, places, padding and positions are looked up by index, in the belief that they are there.
Here each such lookup may fail, and a computation fails with it. The lookups of a cloud that is
accepted find what they look for, and with what they find comes out what was computed without
them.

* `Hierarchy.forwardEdges?`: the places of all children;
* `placements?`: the padding of a place, and the position of each slot in its placement;
* `CloudLayout.pointLookup?`: the position of an address point in its placement;
* `CloudLayout.containmentLookup?`: the positions that are compared along an edge.
-/

namespace VtableCloud

section

variable {α : Type}

/-- The element at an index that may lie before the first. -/
def signedGet? (xs : List α) (i : Int) : Option α := if i < 0 then none else xs[i.toNat]?

/-- Replace the element at an index that may lie before the first or after the last. -/
def signedSet? (xs : List α) (i : Int) (x : α) : Option (List α) :=
  if 0 ≤ i ∧ i < xs.length then some (xs.set i.toNat x) else none

end

/-! ## Lookups -/

namespace Hierarchy

/-- The edges to later places, found by looking up the place of every child. -/
def forwardEdges? (h : Hierarchy) (preorder : List NodeId) : Option (List (Nat × Nat)) := do
  let rows ← preorder.zipIdx.mapM fun (id, i) => do
    let node ← h.nodes[id]?
    let places ← node.children.mapM (preorder.idxOf? ·)
    return (places.filter (i < ·)).map (i, ·)
  return rows.flatten

/-- The placement that is set up for a node at a place, before its slots are found. -/
def blankPlacement? (h : Hierarchy) (pads : List Nat) (id : NodeId) (i : Nat) :
    Option (Option Placement) := do
  let node ← h.nodes[id]?
  if node.isDefined then
    let pad ← pads[i]?
    return some ⟨node.key, id, pad, List.replicate (unsignedWord (node.width + pad)) 0⟩
  else
    return none

/-- Note a slot in the placement of its key. -/
def notePosition? (h : Hierarchy) (key : SubVtableKey) (index : Int) (position : Nat)
    (p : Placement) : Option Placement :=
  if p.key = key then do
    let node ← h.nodes[p.node]?
    let first := signedWord ((node.start : Int) - p.prePad)
    let positions ← signedSet? p.positions (index - first) position
    return { p with positions := positions }
  else
    some p

/-- Note a slot, unless it is filler. -/
def noteSlot? (h : Hierarchy) (placements : List Placement) : Slot × Nat → Option (List Placement)
  | (.dummy, _) => some placements
  | (.entry key index, position) => placements.mapM (h.notePosition? key index position)

/-- The placements of the defined nodes of a preorder, found by going through the slots once. -/
def placements? (h : Hierarchy) (preorder : List NodeId) (pads : List Nat) (slots : List Slot) :
    Option (List Placement) := do
  let blank ← preorder.zipIdx.mapM fun (id, i) => h.blankPlacement? pads id i
  slots.zipIdx.foldlM h.noteSlot? (blank.filterMap id)

end Hierarchy

namespace CloudLayout

/-- The position of the address point of a key. There is none if nothing is recorded for it. -/
def pointLookup? (c : CloudLayout) (h : Hierarchy) (key : SubVtableKey) : Option (Option Nat) :=
  match c.placement? key with
  | none => some none
  | some p => do
    let node ← h.nodes[p.node]?
    let indices ← if p.prePad ≤ p.positions.length then some p.newIndices else none
    let position ← indices[node.addressOffset]?
    return some position

/-- The first slot of the parent that the child has moved differently, if there is one. -/
def movedLookup? (parent : SubVtableKey) (parentBefore childBefore : Nat)
    (parentPositions childPositions : List Nat) : Option (Option Violation) := do
  let parentPoint ← parentPositions[parentBefore]?
  let childPoint ← childPositions[childBefore]?
  parentPositions.zipIdx.findSomeM? fun (position, i) => do
    let distance : Int := (i : Int) - parentBefore
    let childPosition ← signedGet? childPositions (childBefore + distance)
    let inParent : Int := (position : Int) - parentPoint
    let inChild : Int := (childPosition : Int) - childPoint
    return if inParent ≠ inChild then some (.moved parent distance inParent inChild) else none

/-- The violation at one edge. -/
def edgeLookup? (c : CloudLayout) (h : Hierarchy) (edge : Nat × Nat) :
    Option (Option (SubVtableKey × Violation)) := do
  let parent ← h.nodes[← c.preorder[edge.1]?]?
  let child ← h.nodes[← c.preorder[edge.2]?]?
  match c.placement? parent.key, c.placement? child.key with
  | some parentPlace, some childPlace =>
    let parentBefore := parent.addressOffset + parentPlace.prePad
    let childBefore := child.addressOffset + childPlace.prePad
    let parentAfter := parent.last - parent.addressPoint
    let childAfter := child.last - child.addressPoint
    if childBefore < parentBefore ∨ childAfter < parentAfter then
      return some (child.key, .notContained parent.key parentBefore parentAfter childBefore
        childAfter)
    else
      let moved ← movedLookup? parent.key parentBefore childBefore parentPlace.positions
        childPlace.positions
      return moved.map (child.key, ·)
  | _, _ => return none

/-- The first violation at an edge. -/
def containmentLookup? (c : CloudLayout) (h : Hierarchy) :
    Option (Option (SubVtableKey × Violation)) := do
  let edges ← h.forwardEdges? c.preorder
  edges.findSomeM? (c.edgeLookup? h)

end CloudLayout

/-! ## What they find -/

namespace Hierarchy

variable {h : Hierarchy} {root : NodeId}

/-- Every child of a member of a cloud is a member as well. -/
theorem WellFormed.forwardEdges?_eq (wf : h.WellFormed) (lt : root < h.size) :
    h.forwardEdges? (h.preorder root) = some (h.forwardEdges (h.preorder root)) := by
  have row : ∀ x ∈ (h.preorder root).zipIdx, (do
      let node ← h.nodes[x.1]?
      let places ← node.children.mapM ((h.preorder root).idxOf? ·)
      return (places.filter (x.2 < ·)).map (x.2, ·)) =
        some (h.forwardEdgesFrom (h.preorder root) x.2 x.1) := by
    rintro ⟨id, i⟩ hx
    have path := mem_preorder.mp (List.mem_of_getElem? (List.mem_zipIdx_iff_getElem?.mp hx))
    have places : ∀ c ∈ h.children id,
        (h.preorder root).idxOf? c = some ((h.preorder root).idxOf c) := fun c hc =>
      idxOf?_of_mem (mem_preorder.mpr (path.trans (descends_of_mem_children hc)))
    have later : h.forwardEdgesFrom (h.preorder root) i id =
        (((h.children id).map ((h.preorder root).idxOf ·)).filter (i < ·)).map (i, ·) := by
      rw [List.filter_map, List.map_map, ← List.filterMap_eq_map, List.filterMap_filter]
      refine List.filterMap_congr fun c hc => ?_
      simp [places c hc]
    rw [getElem?_nodes (wf.lt_size_of_descends path lt), later]
    show (do
      let places ← (h.children id).mapM ((h.preorder root).idxOf? ·)
      return (places.filter (i < ·)).map (i, ·)) = _
    rw [mapM_some_of_forall places]
    rfl
  rw [forwardEdges?, mapM_some_of_forall row]
  rfl

end Hierarchy

/-! ### Positions of slots -/

theorem set_map_range {α : Type} (f : Nat → α) (n i : Nat) (x : α) :
    ((List.range n).map f).set i x = (List.range n).map fun j => if i = j then x else f j := by
  refine List.ext_getElem (by simp) fun j _ _ => ?_
  simp [List.getElem_set]

section

variable {h : Hierarchy} {members : List Member} {m : Member} {done : List Slot}

/-- The placement of a member once some slots have been noted. -/
def Member.noted (m : Member) (done : List Slot) : Placement :=
  ⟨m.key, m.id, m.pad, (List.range m.extent).map fun i => (done.idxOf? (m.entry i)).getD 0⟩

theorem Member.noted_nil (m : Member) :
    m.noted [] = ⟨m.key, m.id, m.pad, List.replicate m.extent 0⟩ := by
  simp [noted]

/-- A slot of another member changes nothing. -/
theorem Member.noted_other {s : Slot} (other : ∀ i, s ≠ m.entry i) :
    m.noted (done ++ [s]) = m.noted done := by
  simp [noted, idxOf?_snoc, other]

/-- A new slot of the member is noted at its offset. -/
theorem Member.noted_own {i : Nat} (new : m.entry i ∉ done) :
    m.noted (done ++ [m.entry i]) =
      { m.noted done with positions := (m.noted done).positions.set i done.length } := by
  have value (j : Nat) : ((done ++ [m.entry i]).idxOf? (m.entry j)).getD 0 =
      if i = j then done.length else (done.idxOf? (m.entry j)).getD 0 := by
    rw [idxOf?_snoc]
    by_cases same : i = j
    · subst same
      simp [List.idxOf?_eq_none_iff.mpr new]
    · simp [same]
  simp only [noted, value, set_map_range]

/-- A slot of a member of the same key is noted in its placement. -/
theorem notePosition?_own (there : h.nodes[m.id]? = some m.node) {i : Nat} (lt : i < m.extent)
    (new : m.entry i ∉ done) :
    h.notePosition? m.key (m.first + i) done.length (m.noted done) =
      some (m.noted (done ++ [m.entry i])) := by
  have offset : m.first + i - signedWord ((m.node.start : Int) - m.pad) = i := by
    rw [Member.first]
    omega
  have inside : 0 ≤ (i : Int) ∧ (i : Int) < ((m.noted done).positions.length : Nat) := by
    simp [Member.noted, lt]
  have node : h.nodes[(m.noted done).node]? = some m.node := there
  have pad : (m.noted done).prePad = m.pad := rfl
  rw [Hierarchy.notePosition?, if_pos (show (m.noted done).key = m.key from rfl), node]
  simp only [bind, Option.bind, pad, offset, signedSet?, if_pos inside, Int.toNat_natCast, pure,
    m.noted_own new]

/-- The placements that are set up are those of the defined members. -/
theorem mapM_blankPlacement? (sep : Separate members)
    (there : ∀ m ∈ members, h.nodes[m.id]? = some m.node) {pads : List Nat}
    (padded : ∀ (k : Nat) (m : Member), members[k]? = some m → pads[k]? = some m.pad) :
    ∃ blank, ((members.map (·.id)).zipIdx.mapM fun (id, i) => h.blankPlacement? pads id i) =
        some blank ∧
      blank.filterMap id = (members.filter (·.node.isDefined)).map (·.noted []) := by
  have each : ∀ x ∈ members.zipIdx, h.blankPlacement? pads x.1.id x.2 =
      some (if x.1.node.isDefined = true then some (x.1.noted []) else none) := by
    rintro ⟨m, k⟩ hx
    have hm := List.mem_zipIdx_iff_getElem?.mp hx
    rw [Hierarchy.blankPlacement?, there m (List.mem_of_getElem? hm), padded k m hm]
    cases defined : m.node.isDefined with
    | false => simp [defined]
    | true =>
      have size := (sep.fits m (List.mem_of_getElem? hm) defined).size_eq
      rw [Member.size] at size
      simp [defined, m.noted_nil, size]
      rfl
  refine ⟨members.map fun m => if m.node.isDefined = true then some (m.noted []) else none, ?_, ?_⟩
  · rw [List.zipIdx_map, List.mapM_map]
    refine (mapM_some_of_forall each).trans ?_
    conv_rhs => rw [← List.zipIdx_map_fst 0 members, List.map_map]
    rfl
  · rw [List.filterMap_map, ← List.filterMap_eq_map, List.filterMap_filter]
    rfl

/-- One step of going through the slots. -/
theorem noteSlot?_noted (sep : Separate members)
    (there : ∀ m ∈ members, h.nodes[m.id]? = some m.node) {s : Slot}
    (only : s ≠ .dummy → ∃ m ∈ members, m.node.isDefined = true ∧ ∃ i < m.extent, s = m.entry i)
    (new : s ∈ done → s = .dummy) :
    h.noteSlot? ((members.filter (·.node.isDefined)).map (·.noted done)) (s, done.length) =
      some ((members.filter (·.node.isDefined)).map (·.noted (done ++ [s]))) := by
  cases s with
  | dummy =>
    have same : ∀ m ∈ members.filter (·.node.isDefined),
        m.noted (done ++ [.dummy]) = m.noted done := fun m _ =>
      m.noted_other fun i eq => m.entry_ne_dummy i eq.symm
    rw [List.map_congr_left same]
    rfl
  | entry key index =>
    obtain ⟨m, hm, defined, i, lt, eq⟩ := only nofun
    obtain ⟨rfl, rfl⟩ := Slot.entry.inj eq
    show ((members.filter (·.node.isDefined)).map (·.noted done)).mapM
      (h.notePosition? m.key (m.first + i) done.length) = _
    rw [List.mapM_map]
    refine mapM_some_of_forall fun m' hm' => ?_
    have member := (List.mem_filter.mp hm').1
    by_cases own : m'.key = m.key
    · obtain rfl := sep.keys.eq_of_key member hm own
      refine notePosition?_own (there m' hm) lt fun old => ?_
      exact m'.entry_ne_dummy i (new old)
    · have other : ∀ j, Slot.entry m.key (m.first + i) ≠ m'.entry j := fun j eq =>
        own (Slot.entry.inj eq).1.symm
      rw [m'.noted_other other]
      exact if_neg own

/-- Going through the slots from some place on. -/
theorem foldlM_noteSlot? (sep : Separate members)
    (there : ∀ m ∈ members, h.nodes[m.id]? = some m.node) {slots : List Slot}
    (once : EntriesOnce slots)
    (only : ∀ s ∈ slots, s ≠ .dummy →
      ∃ m ∈ members, m.node.isDefined = true ∧ ∃ i < m.extent, s = m.entry i) :
    ∀ {rest done : List Slot}, slots = done ++ rest →
      (rest.zipIdx done.length).foldlM h.noteSlot?
          ((members.filter (·.node.isDefined)).map (·.noted done)) =
        some ((members.filter (·.node.isDefined)).map (·.noted slots)) := by
  intro rest
  induction rest with
  | nil =>
    intro done split
    rw [split, List.append_nil]
    rfl
  | cons s rest ih =>
    intro done split
    have new : s ∈ done → s = .dummy := by
      rw [split, EntriesOnce, List.pairwise_append] at once
      exact fun old => once.2.2 s old s List.mem_cons_self rfl
    have here : s ∈ slots := split ▸ List.mem_append_right done List.mem_cons_self
    have shifted : slots = (done ++ [s]) ++ rest := by
      rw [split, List.append_assoc]
      rfl
    have next := ih shifted
    rw [List.length_append] at next
    rw [List.zipIdx_cons, List.foldlM_cons, noteSlot?_noted sep there (only s here) new]
    exact next

/-- The placements of a faithful table are found to be the positions of its members. -/
theorem placements?_of_faithful (sep : Separate members)
    (there : ∀ m ∈ members, h.nodes[m.id]? = some m.node) {pads : List Nat}
    (padded : ∀ (k : Nat) (m : Member), members[k]? = some m → pads[k]? = some m.pad)
    {slots : List Slot} (faithful : Faithful members slots) :
    h.placements? (members.map (·.id)) pads slots =
      some ((members.filter (·.node.isDefined)).map fun m =>
        ⟨m.key, m.id, m.pad, m.positions slots⟩) := by
  obtain ⟨blank, set, defined⟩ := mapM_blankPlacement? sep there padded
  rw [Hierarchy.placements?, set]
  show slots.zipIdx.foldlM h.noteSlot? (blank.filterMap id) = _
  rw [defined]
  refine (foldlM_noteSlot? sep there (faithful.entriesOnce sep)
    (fun s hs some => faithful.exists_entry sep hs some) rfl).trans ?_
  refine congrArg some (List.map_congr_left fun m hm => ?_)
  obtain ⟨member, here⟩ := List.mem_filter.mp hm
  obtain ⟨place, placed⟩ := faithful.placed sep member here
  have noted : (List.range m.extent).map (fun i => (slots.idxOf? (m.entry i)).getD 0) =
      m.positions slots := by
    rw [placed.positions_eq]
    refine List.map_congr_left fun i hi => ?_
    rw [placed.idxOf?_eq (List.mem_range.mp hi)]
    rfl
  rw [Member.noted, noted]

end

namespace Hierarchy

variable {h : Hierarchy} {options : LayoutOptions} {root : NodeId}

theorem WellFormed.getElem?_nodes_of_mem (wf : h.WellFormed) (lt : root < h.size)
    {pads : List Nat} {m : Member} (hm : m ∈ h.members (h.preorder root) pads) :
    h.nodes[m.id]? = some m.node := by
  obtain ⟨k, hk⟩ := List.mem_iff_getElem?.mp hm
  obtain ⟨hid, -, node⟩ := getElem?_members hk
  have path := mem_preorder.mp (List.mem_of_getElem? hid)
  rw [node]
  exact getElem?_nodes (wf.lt_size_of_descends path lt)

/-- The placements of a cloud are found to be those that it has. -/
theorem WellFormed.placements?_eq (wf : h.WellFormed) (fits : h.Fits options root) :
    h.placements? (h.preorder root) (h.prePadding (h.preorder root))
        (h.arrangedCloud options root).slots =
      some (h.arrangedCloud options root).placements := by
  have sep := wf.separate_paddedMembers fits
  have faithful := (wf.arranges_arrangedCloud fits).faithful sep
  have found := placements?_of_faithful sep (fun m hm => wf.getElem?_nodes_of_mem fits.lt hm)
    (fun k m hm => (getElem?_members hm).2.1) faithful
  rwa [h.map_id_paddedMembers root] at found

/-! ### Positions that are recorded -/

/-- What is recorded is recorded for a defined member. -/
theorem WellFormed.member_of_placement? (wf : h.WellFormed) (fits : h.Fits options root)
    {key : SubVtableKey} {p : Placement}
    (found : (h.arrangedCloud options root).placement? key = some p) :
    ∃ (k : Nat) (m : Member), (h.paddedMembers root)[k]? = some m ∧ m.node.isDefined = true ∧
      key = m.key ∧ p = ⟨m.key, m.id, m.pad,
        (List.range m.extent).map (options.strategy.place (h.paddedMembers root) k)⟩ := by
  obtain ⟨m, hm, eq⟩ := List.mem_map.mp (List.mem_of_find?_eq_some found)
  obtain ⟨member, defined⟩ := List.mem_filter.mp hm
  obtain ⟨k, hk⟩ := List.mem_iff_getElem?.mp member
  have same := List.find?_some found
  obtain rfl : key = m.key := by rw [← beq_iff_eq.mp same, ← eq]
  have recorded : (h.arrangedCloud options root).placement? m.key = _ :=
    wf.placement?_arrangedCloud fits hk defined
  exact ⟨k, m, hk, defined, rfl, Option.some.inj (found.symm.trans recorded)⟩

theorem WellFormed.pointLookup?_eq (wf : h.WellFormed) (fits : h.Fits options root)
    (key : SubVtableKey) :
    (h.arrangedCloud options root).pointLookup? h key =
      some ((h.arrangedCloud options root).addressPointPosition? h key) := by
  cases found : (h.arrangedCloud options root).placement? key with
  | none => simp [CloudLayout.pointLookup?, CloudLayout.addressPointPosition?, found]
  | some p =>
    obtain ⟨k, m, hm, defined, rfl, rfl⟩ := wf.member_of_placement? fits found
    have member := List.mem_of_getElem? hm
    have own := (wf.separate_paddedMembers fits).fits m member defined
    have inside := own.before_lt
    have sliced : m.pad ≤ m.extent := by
      rw [own.extent_eq, Member.before]
      omega
    have before : m.pad + m.node.addressOffset = m.before := Nat.add_comm _ _
    rw [← key_of_getElem? hm, wf.addressPointPosition?_of_place fits hm defined, key_of_getElem? hm]
    simp [CloudLayout.pointLookup?, found, wf.getElem?_nodes_of_mem fits.lt member, sliced,
      Placement.newIndices, before, inside]

theorem signedGet?_natCast {α : Type} (xs : List α) (i : Nat) : signedGet? xs i = xs[i]? := by
  rw [signedGet?, if_neg (Int.not_lt.mpr (Int.natCast_nonneg i)), Int.toNat_natCast]

/-- Along an edge that is accepted every slot of the parent is found in the child. -/
theorem movedLookup?_eq_none {parent : SubVtableKey} {before childBefore n childN : Nat}
    {f g : Nat → Nat} (inside : before < n) (childInside : childBefore < childN)
    (fewer : before ≤ childBefore) (enough : childBefore - before + n ≤ childN)
    (carried : ∀ i < n, (g (childBefore - before + i) : Int) - g childBefore = f i - f before) :
    CloudLayout.movedLookup? parent before childBefore ((List.range n).map f)
      ((List.range childN).map g) = some none := by
  have parentPoint : ((List.range n).map f)[before]? = some (f before) := by simp [inside]
  have childPoint : ((List.range childN).map g)[childBefore]? = some (g childBefore) := by
    simp [childInside]
  rw [CloudLayout.movedLookup?, parentPoint, childPoint]
  refine findSomeM?_none ?_
  rintro ⟨position, i⟩ hx
  obtain ⟨lt, eq⟩ := List.getElem?_eq_some_iff.mp (List.mem_zipIdx_iff_getElem?.mp hx)
  rw [List.length_map, List.length_range] at lt
  rw [List.getElem_map, List.getElem_range] at eq
  obtain rfl : f i = position := eq
  have index : (childBefore : Int) + ((i : Int) - before) =
      ((childBefore - before + i : Nat) : Int) := by omega
  have there : childBefore - before + i < childN := by omega
  have found : ((List.range childN).map g)[childBefore - before + i]? =
      some (g (childBefore - before + i)) := by simp [there]
  simp only [index, signedGet?_natCast, found, bind, Option.bind, carried i lt]
  simp

/-- The ends of an edge are nodes. If both are defined, their positions are compared without a
difference. -/
theorem WellFormed.edgeLookup?_eq_none (wf : h.WellFormed) (fits : h.Fits options root)
    (contained : (h.arrangedCloud options root).checkContainment h = .ok ()) {i j : Nat}
    (edge : (i, j) ∈ h.forwardEdges (h.preorder root)) :
    (h.arrangedCloud options root).edgeLookup? h (i, j) = some none := by
  obtain ⟨a, c, later⟩ := mem_forwardEdges_preorder.mp edge
  obtain ⟨m, hm, rfl, -⟩ := member_of_place later.atParent
  obtain ⟨m', hm', rfl, -⟩ := member_of_place later.atChild
  have member := List.mem_of_getElem? hm
  have member' := List.mem_of_getElem? hm'
  simp only [CloudLayout.edgeLookup?, preorder_arrangedCloud, later.atParent, later.atChild, bind,
    Option.bind, wf.getElem?_nodes_of_mem fits.lt member, wf.getElem?_nodes_of_mem fits.lt member']
  rw [show m.node.key = m.key from rfl, show m'.node.key = m'.key from rfl]
  cases defined : m.node.isDefined with
  | false =>
    rw [wf.placement?_eq_none fits member defined]
    rfl
  | true =>
    cases defined' : m'.node.isDefined with
    | false =>
      rw [wf.placement?_eq_none fits member' defined']
      cases (h.arrangedCloud options root).placement? m.key <;> rfl
    | true =>
      have sep := wf.separate_paddedMembers fits
      have own := sep.fits m member defined
      have other := sep.fits m' member' defined'
      have fewer := later.before_le hm hm' (Nat.le_of_lt later.before) (Nat.le_refl j)
      obtain ⟨kept, carried⟩ :=
        (wf.checkContainment_iff fits).mp contained i j m m' hm hm' later defined defined'
      have enough : m'.before - m.before + m.extent ≤ m'.extent := by
        rw [own.extent_eq, other.extent_eq]
        omega
      have apart : ¬ (m'.before < m.before ∨ m'.after < m.after) := by omega
      have moved : CloudLayout.movedLookup? m.key m.before m'.before
          ((List.range m.extent).map (options.strategy.place (h.paddedMembers root) i))
          ((List.range m'.extent).map (options.strategy.place (h.paddedMembers root) j)) =
            some none :=
        movedLookup?_eq_none own.before_lt other.before_lt fewer enough carried
      rw [wf.placement?_arrangedCloud fits hm defined,
        wf.placement?_arrangedCloud fits hm' defined']
      refine (if_neg apart).trans ?_
      exact congrArg (Option.bind · fun moved => some (moved.map (m'.key, ·))) moved

theorem WellFormed.containmentLookup?_eq_none (wf : h.WellFormed) (fits : h.Fits options root)
    (contained : (h.arrangedCloud options root).checkContainment h = .ok ()) :
    (h.arrangedCloud options root).containmentLookup? h = some none := by
  rw [CloudLayout.containmentLookup?, preorder_arrangedCloud, wf.forwardEdges?_eq fits.lt]
  exact findSomeM?_none fun edge he => wf.edgeLookup?_eq_none fits contained he

end Hierarchy

end VtableCloud
