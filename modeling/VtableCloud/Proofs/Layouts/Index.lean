import VtableCloud.Layouts.Index
import VtableCloud.Proofs.Hierarchy.Query
import VtableCloud.Proofs.Layouts.Build

/-!
# Where slots are translated to

* `Built.newIndices_of_place`, `Built.exists_newIndices`: the new positions of the slots of a
  defined node;
* `Built.translate_relative`, `Built.translate_of_place`: a distance from the address point of a
  key is translated like in the node that stands for it;
* `Built.translate_absolute`: an offset from the start of a defined node is translated if it has
  a slot there.
-/

namespace VtableCloud

/-- A node has as many new positions as slots. -/
theorem Member.Fits.length_positions {m : Member} (own : m.Fits) (place : Nat → Nat) :
    (((List.range m.extent).map place).drop m.pad).length = m.node.width := by
  rw [List.length_drop, List.length_map, List.length_range, own.extent_eq_width]
  omega

/-- The new position of a slot of a node. -/
theorem Member.Fits.getD_positions {m : Member} (own : m.Fits) (place : Nat → Nat) {i : Nat}
    (inside : i < m.node.width) :
    (((List.range m.extent).map place).drop m.pad).getD i 0 = place (m.pad + i) := by
  have within : m.pad + i < m.extent := by
    rw [own.extent_eq_width]
    omega
  simp [List.getD_eq_getElem?_getD, within]

namespace Layouts

/-- A key is represented like its node. -/
theorem representative_of_find? {l : Layouts} {key : SubVtableKey} {id r : NodeId}
    (found : l.hierarchy.find? key = some id)
    (represented : l.hierarchy.representative id = .ok r) : l.representative key = .ok r := by
  rw [Layouts.representative, Hierarchy.nodeId, found]
  exact mapError_ok.mpr represented

namespace Built

variable {l : Layouts} {id : NodeId} {k : Nat} {m : Member}

/-- A defined sub-vtable has a place in the table that hosts it. -/
theorem member_of_isDefined (built : l.Built) (defined : l.hierarchy.isDefined id = true) :
    ∃ (k : Nat) (m : Member), (l.members id)[k]? = some m ∧ m.id = id ∧
      m.node = l.hierarchy.node id ∧ m.node.isDefined = true :=
  Hierarchy.member_of_isDefined (built.wf.descends_cloudRoot id) defined

/-- The numbers of a defined member of a cloud are words. -/
theorem member_fits (built : l.Built) (lt : id < l.hierarchy.size)
    (hm : (l.members id)[k]? = some m) (defined : m.node.isDefined = true) : m.Fits :=
  (built.wf.separate_paddedMembers (built.fits id lt)).fits m (List.mem_of_getElem? hm) defined

theorem newIndices_of_place (built : l.Built) (lt : m.id < l.hierarchy.size)
    (hm : (l.members m.id)[k]? = some m) (defined : m.node.isDefined = true) :
    l.newIndices m.id = .ok (((List.range m.extent).map (l.place m.id k)).drop m.pad) := by
  have placed : (l.arrangedCloud m.id).placement? m.key =
      some ⟨m.key, m.id, m.pad, (List.range m.extent).map (l.place m.id k)⟩ :=
    built.wf.placement?_arrangedCloud (built.fits m.id lt) hm defined
  rw [newIndices, built.cloudOf m.id lt, Hierarchy.key_of_getElem? hm]
  simp only [bind, Except.bind, placed]
  rfl

/-- A defined node has a new position for each of its slots, that of its address point among
them. -/
theorem exists_newIndices (built : l.Built) (defined : l.hierarchy.isDefined id = true) :
    ∃ indices, l.newIndices id = .ok indices ∧ indices.length = (l.hierarchy.node id).width ∧
      (l.hierarchy.node id).addressOffset < indices.length := by
  have lt := Hierarchy.lt_size_of_isDefined defined
  obtain ⟨k, m, hm, rfl, node, here⟩ := built.member_of_isDefined defined
  have own := built.member_fits lt hm here
  have inside := own.before_lt
  have before : m.before = m.node.addressOffset + m.pad := rfl
  have width := own.extent_eq_width
  rw [← node]
  refine ⟨_, built.newIndices_of_place lt hm here, own.length_positions _, ?_⟩
  rw [own.length_positions]
  omega

/-- A distance from the address point of a key is translated like in the node that stands
for it, if this has a slot there. -/
theorem translate_relative (built : l.Built) {key : SubVtableKey}
    (found : l.hierarchy.find? key = some id)
    (represented : l.hierarchy.representative id = .ok m.id)
    (hm : (l.members m.id)[k]? = some m) (distance : Int) :
    l.translate key distance true =
      if distance < -(m.node.addressOffset : Int) ∨ m.after < distance then
        .error (.indexOutOfRange key distance m.node.width)
      else .ok ((l.place m.id k (m.before + distance).toNat : Int) - l.place m.id k m.before) := by
  have node := (Hierarchy.getElem?_members hm).2.2
  have here := (Hierarchy.representative_ok represented).2
  have lt := Hierarchy.lt_size_of_isDefined here
  have defined : m.node.isDefined = true := by rw [node]; exact here
  have own := built.member_fits lt hm defined
  have extent := own.extent_eq
  have before : m.before = m.node.addressOffset + m.pad := rfl
  have width := own.extent_eq_width
  have stands := representative_of_find? found represented
  have indices := built.newIndices_of_place lt hm defined
  simp only [translate, stands, indices, bind, Except.bind, pure, Except.pure, if_true, ← node,
    own.length_positions]
  by_cases beyond : distance < -(m.node.addressOffset : Int) ∨ m.after < distance
  · rw [if_pos beyond, if_pos (by omega)]
  · have index : m.pad + (m.node.addressOffset + distance).toNat = (m.before + distance).toNat := by
      omega
    have point : m.pad + m.node.addressOffset = m.before := Nat.add_comm _ _
    rw [if_neg beyond, if_neg (by omega), own.getD_positions _ (by omega), index,
      own.getD_positions _ (by omega), point]

/-- A distance from the address point of a key at which the node that stands for it has a slot. -/
theorem translate_of_place (built : l.Built) {key : SubVtableKey}
    (found : l.hierarchy.find? key = some id)
    (represented : l.hierarchy.representative id = .ok m.id)
    (hm : (l.members m.id)[k]? = some m) {distance : Int}
    (lo : -(m.node.addressOffset : Int) ≤ distance) (hi : distance ≤ m.after) :
    l.translate key distance true =
      .ok ((l.place m.id k (m.before + distance).toNat : Int) - l.place m.id k m.before) := by
  rw [built.translate_relative found represented hm, if_neg (by omega)]

/-- An offset from the start of a defined node is translated if it has a slot there. -/
theorem translate_absolute (built : l.Built) (lt : m.id < l.hierarchy.size)
    (hm : (l.members m.id)[k]? = some m) (defined : m.node.isDefined = true) (offset : Int) :
    l.translate m.key offset false =
      if offset < 0 ∨ (m.node.width : Int) ≤ offset then
        .error (.indexOutOfRange m.key offset m.node.width)
      else .ok (l.place m.id k (m.pad + offset.toNat)) := by
  have node := (Hierarchy.getElem?_members hm).2.2
  have own := built.member_fits lt hm defined
  have found : l.hierarchy.find? m.key = some m.id := by
    rw [← Hierarchy.key_of_getElem? hm]
    exact built.wf.find?_key lt
  have here : l.hierarchy.representative m.id = .ok m.id := by
    apply Hierarchy.representative_self
    rw [Hierarchy.isDefined, ← node, defined]
  have stands := representative_of_find? found here
  have indices := built.newIndices_of_place lt hm defined
  simp only [translate, stands, indices, bind, Except.bind, pure, Except.pure, own.length_positions]
  by_cases beyond : offset < 0 ∨ (m.node.width : Int) ≤ offset
  · simp only [Bool.false_eq_true, if_false, if_pos beyond]
  · have inside : offset.toNat < m.node.width := by omega
    simp only [Bool.false_eq_true, if_false, if_neg beyond, own.getD_positions _ inside]

end Built

end Layouts

end VtableCloud
