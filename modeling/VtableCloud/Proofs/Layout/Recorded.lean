import VtableCloud.Proofs.Hierarchy.Monotone
import VtableCloud.Proofs.Layout.Lookups

/-!
# What is recorded of a table that is accepted

* `CloudLayout.Records`, `Faithful.records`: a layout made from a faithful table records for each
  defined member positions that hold its slots, no two of them equal;
* `checkStream_exact`: any table whatever is accepted just if it is faithful and, if ordered, in
  rows, and what is recorded of it then is what going through its slots once finds.
-/

namespace VtableCloud

/-- A layout records for each defined member where its table holds the slots of the member, padding
first, and no position twice. -/
structure CloudLayout.Records (c : CloudLayout) (members : List Member) : Prop where
  keys : c.placements.map (·.key) = (members.filter (·.node.isDefined)).map (·.key)
  placed : ∀ m ∈ members, m.node.isDefined = true →
    ∃ positions, c.placement? m.key = some ⟨m.key, m.id, m.pad, positions⟩ ∧
      positions.length = m.pad + m.node.width ∧
      ∀ i p : Nat, positions[i]? = some p →
        c.slots[p]? = some (.entry m.key ((m.node.start : Int) - m.pad + i))
  distinct : (c.placements.flatMap (·.positions)).Nodup

theorem Faithful.records {root : String} {options : LayoutOptions} {members : List Member}
    {table : Arrangement} (faithful : Faithful members table.slots) (sep : Separate members) :
    (CloudLayout.ofArrangement root options members table).Records members where
  keys := List.map_map
  placed m hm defined := by
    obtain ⟨place, placed⟩ := faithful.placed sep hm defined
    have own := sep.fits m hm defined
    refine ⟨_, CloudLayout.placement?_ofArrangement sep hm defined, ?_, fun i p hp => ?_⟩
    · simp [placed.positions_eq, own.extent_eq_width, Nat.add_comm]
    · rw [placed.positions_eq, List.getElem?_map, Option.map_eq_some_iff] at hp
      obtain ⟨j, hj, rfl⟩ := hp
      obtain ⟨lt, rfl⟩ := List.getElem?_eq_some_iff.mp hj
      rw [List.length_range] at lt
      rw [List.getElem_range, ← own.first_eq]
      exact placed.here i lt
  distinct := by
    have distinct := faithful.nodup_positions sep
    rwa [CloudLayout.ofArrangement, List.flatMap_map]

/-- Whatever a table holds and however a cloud is padded, as long as its numbers are words, the
check of its slots accepts the table just if each slot but filler is one of a defined member, each
slot of such a member stands there once and these in their order, and an ordered table holds them in
a row with the address point aligned. The layout that is made of an accepted table then records the
positions of the slots. -/
theorem checkStream_exact {records : List ClassRecord} {h : Hierarchy}
    (ingested : Hierarchy.ofRecords records = .ok h) {root : NodeId} (lt : root < h.size)
    {pads : List Nat} (length : pads.length = (h.preorder root).length)
    (words : ∀ m ∈ h.members (h.preorder root) pads, m.node.isDefined = true → m.InWords)
    (name : String) (options : LayoutOptions) (table : Arrangement) :
    let members := h.members (h.preorder root) pads
    let c := CloudLayout.ofArrangement name options members table
    (checkStream name options.strategy members table = .ok () ↔
      Faithful members table.slots ∧ (options.strategy = .ordered → InRows members table)) ∧
    (checkStream name options.strategy members table = .ok () →
      c.Records members ∧
        h.placements? (h.preorder root) pads table.slots = some c.placements) := by
  intro members c
  have wf := Hierarchy.wellFormed_of_ofRecords ingested
  have sep := wf.separate lt length words
  refine ⟨checkStream_iff sep, fun accepted => ?_⟩
  have faithful := ((checkStream_iff sep).mp accepted).1
  refine ⟨faithful.records sep, ?_⟩
  have found := placements?_of_faithful sep (fun m hm => wf.getElem?_nodes_of_mem lt hm)
    (fun k m hm => (Hierarchy.getElem?_members hm).2.1) faithful
  rwa [Hierarchy.map_id_members length] at found

namespace Diamond

/-- The defined classes of the diamond with some padding, the last one first, and filler where no
alignment calls for it. -/
def reversed : Arrangement :=
  let slots (name : String) (first : Int) (count : Nat) : List Slot :=
    (List.range count).map fun i => .entry (.primary name) (first + i)
  ⟨slots "Right" (-2) 5 ++ [.dummy] ++ slots "Base" 0 3 ++ slots "Tip" (-1) 6 ++ [.dummy], 2⟩

end Diamond

/-- No strategy arranges the diamond like this, but it is a table that is faithful and in rows. -/
theorem reversed_diamond_recorded :
    [0, 3, 1, 2].length = (Diamond.hierarchy.preorder 0).length ∧
    let members := Diamond.hierarchy.members (Diamond.hierarchy.preorder 0) [0, 3, 1, 2]
    let c := CloudLayout.ofArrangement "Base" ⟨.ordered, 8⟩ members Diamond.reversed
    (∀ m ∈ members, m.node.isDefined = true → m.InWords) ∧
      Faithful members c.slots ∧ InRows members Diamond.reversed ∧ c.Records members ∧
      c.placement? (.primary "Tip") = some ⟨.primary "Tip", 3, 1, [9, 10, 11, 12, 13, 14]⟩ := by
  obtain ⟨exact, recorded⟩ := checkStream_exact Diamond.ofRecords_records Diamond.size_pos
    Diamond.length_padding Diamond.inWords_padding "Base" ⟨.ordered, 8⟩ Diamond.reversed
  have accepted : checkStream "Base" .ordered
      (Diamond.hierarchy.members (Diamond.hierarchy.preorder 0) [0, 3, 1, 2])
      Diamond.reversed = .ok () := by rfl
  obtain ⟨faithful, rows⟩ := exact.mp accepted
  exact ⟨Diamond.length_padding, Diamond.inWords_padding, faithful, rows rfl,
    (recorded accepted).1, by rfl⟩

/-- With padding so far that the size of the leaf wraps around, a table without its slots is
accepted. -/
theorem deep_accepted_empty :
    Hierarchy.ofRecords Deep.records = .ok Deep.hierarchy ∧
    [0, 18446744073709551615].length = (Deep.hierarchy.preorder 0).length ∧
    let members := Deep.hierarchy.members (Deep.hierarchy.preorder 0) [0, 18446744073709551615]
    checkStream "Base" .interleaved members ⟨[], 1⟩ = .ok () ∧ ¬ Faithful members [] := by
  refine ⟨Deep.ofRecords_records, by decide +kernel, by decide +kernel, fun faithful => ?_⟩
  obtain ⟨leaf, listed, defined, owned⟩ : ∃ m ∈ Deep.hierarchy.members (Deep.hierarchy.preorder 0)
      [0, 18446744073709551615], m.node.isDefined = true ∧ m.Owns 0 :=
    ⟨⟨1, Deep.hierarchy.node 1, 18446744073709551615⟩, by decide +kernel, by decide +kernel, by
      rw [Member.Owns]
      decide +kernel⟩
  exact absurd (faithful.once leaf listed defined 0 owned) (by simp)

end VtableCloud
