import VtableCloud.Proofs.Hierarchy.Consistency
import VtableCloud.Proofs.Layouts.Slots
import VtableCloud.Proofs.Layouts.Table

/-!
# What the new tables hold

* `Element.WrittenAs`: how an element of an old vtable is written in a new table;
* `Layouts.CarriedTo`: which slot of an old vtable a position of a new table is for;
* `Built.position_of_translate`, `Built.slot_of_carriedTo`: what is translated is carried over;
* `Built.slotElement_of_origin`: all other positions are null;
* `materializeAll_contents`: all tables can be filled, and hold the old elements and nothing else.
-/

namespace VtableCloud

/-- How an element of an old vtable is written in the table of a root class. Virtual thunks are
replaced by clones, all else is kept. -/
inductive Element.WrittenAs (root : String) : Element → Element → Prop
  | clone {symbol : String}
      (thunk : "_ZTv".toList <+: symbol.toList ∨ "_ZTcv".toList <+: symbol.toList) :
      WrittenAs root (.function symbol) (.function ("_SVT" ++ root ++ symbol))
  | kept {e : Element}
      (plain : ∀ symbol, e = .function symbol →
        ¬ ("_ZTv".toList <+: symbol.toList ∨ "_ZTcv".toList <+: symbol.toList)) :
      WrittenAs root e e

theorem isVirtualThunkSymbol_iff {symbol : String} : isVirtualThunkSymbol symbol = true ↔
    "_ZTv".toList <+: symbol.toList ∨ "_ZTcv".toList <+: symbol.toList := by
  rw [isVirtualThunkSymbol, Bool.or_eq_true, List.isPrefixOf_iff_prefix, List.isPrefixOf_iff_prefix]

theorem Element.writtenAs_renamed (root : String) (e : Element) :
    e.WrittenAs root (e.renamed root) := by
  cases e with
  | null | offset | rtti => exact .kept nofun
  | function symbol =>
    by_cases thunk : isVirtualThunkSymbol symbol = true
    · rw [renamed, if_pos thunk]
      exact .clone (isVirtualThunkSymbol_iff.mp thunk)
    · rw [renamed, if_neg thunk]
      refine .kept fun other same => ?_
      obtain rfl := Element.function.inj same
      exact fun found => thunk (isVirtualThunkSymbol_iff.mpr found)

namespace Hierarchy

variable {h : Hierarchy} {id : NodeId}

/-- The root classes are listed in the order of their names. -/
theorem WellFormed.sorted_roots (wf : h.WellFormed) : h.roots.Pairwise (· < ·) := by
  rw [roots, List.pairwise_map, List.pairwise_filter]
  refine (List.pairwise_map.mp wf.keys).imp fun {a b} less first second => ?_
  simp only [Bool.and_eq_true, SubVtableKey.isPrimary, beq_iff_eq] at first second
  rcases less with name | ⟨-, order⟩
  · exact name
  · omega

end Hierarchy

namespace Layouts

/-- A position of a table is the new place of the slot at a distance from the address point of a
defined sub-vtable. -/
structure CarriedTo (l : Layouts) (c : CloudLayout) (id : NodeId) (r : Int) (p : Nat) : Prop where
  defined : l.hierarchy.isDefined id = true
  hosted : l.cloudOf id = .ok c
  translated : ∃ (ap : Nat) (t : Int),
    c.addressPointPosition? l.hierarchy (l.hierarchy.key id) = some ap ∧
      l.translate (l.hierarchy.key id) r true = .ok t ∧ (p : Int) = ap + t

variable {l : Layouts} {c : CloudLayout} {id : NodeId} {p : Nat}

namespace Built

/-- Counted from the address point or from the start of a defined sub-vtable, the same slots are
translated, and to the same positions. -/
theorem translate_iff (built : l.Built) (defined : l.hierarchy.isDefined id = true) :
    ∃ ap : Nat,
      (l.arrangedCloud id).addressPointPosition? l.hierarchy (l.hierarchy.key id) = some ap ∧
      ∀ r t : Int, l.translate (l.hierarchy.key id) r true = .ok t ↔
        l.translate (l.hierarchy.key id) ((l.hierarchy.node id).addressOffset + r) false =
          .ok (ap + t) := by
  have lt := Hierarchy.lt_size_of_isDefined defined
  have found := built.wf.find?_key lt
  have itself := Hierarchy.representative_self defined
  obtain ⟨k, m, hm, rfl, node, here⟩ := built.member_of_isDefined defined
  have relative := built.translate_relative found itself hm
  have point : (l.arrangedCloud m.id).addressPointPosition? l.hierarchy (l.hierarchy.key m.id) =
      some (l.place m.id k m.before) :=
    built.wf.addressPointPosition?_of_place (built.fits m.id lt) hm here
  refine ⟨_, point, fun r t => ?_⟩
  rw [relative, Hierarchy.key_of_getElem? hm, ← node, built.translate_absolute lt hm here]
  have own := built.member_fits lt hm here
  have extent := own.extent_eq
  have before : m.before = m.node.addressOffset + m.pad := rfl
  have width := own.extent_eq_width
  by_cases outside : r < -(m.node.addressOffset : Int) ∨ m.after < r
  · rw [if_pos outside, if_pos (by omega)]
    exact iff_of_false nofun nofun
  · have same : m.pad + ((m.node.addressOffset : Int) + r).toNat = (m.before + r).toNat := by omega
    rw [if_neg outside, if_neg (by omega), same, Except.ok.injEq, Except.ok.injEq]
    omega

/-- What is translated has a position. -/
theorem position_of_translate (built : l.Built) (defined : l.hierarchy.isDefined id = true)
    {r t : Int} (translated : l.translate (l.hierarchy.key id) r true = .ok t) :
    ∃ ap p : Nat,
      (l.arrangedCloud id).addressPointPosition? l.hierarchy (l.hierarchy.key id) = some ap ∧
      (p : Int) = ap + t := by
  obtain ⟨ap, point, same⟩ := built.translate_iff defined
  obtain ⟨-, -, -, p, eq, -⟩ := built.slot_of_translate defined ((same r t).mp translated)
  exact ⟨ap, p, point, eq.symm⟩

/-- A position that a slot is carried to is that of the slot. -/
theorem slot_of_carriedTo (built : l.Built) {r : Int} (carried : l.CarriedTo c id r p) :
    ∃ n : Nat, (n : Int) = (l.hierarchy.node id).addressPoint + r ∧
      (l.hierarchy.node id).start ≤ n ∧ n ≤ (l.hierarchy.node id).last ∧
      c.slots[p]? = some (.entry (l.hierarchy.key id) n) := by
  obtain ⟨defined, hosted, ap, t, point, translated, eq⟩ := carried
  have lt := Hierarchy.lt_size_of_isDefined defined
  obtain rfl := Except.ok.inj ((built.cloudOf id lt).symm.trans hosted)
  obtain ⟨ap', point', same⟩ := built.translate_iff defined
  obtain rfl := Option.some.inj (point.symm.trans point')
  obtain ⟨o, offset, within, p', eq', here⟩ :=
    built.slot_of_translate defined ((same r t).mp translated)
  obtain rfl : p = p' := by omega
  have ordered := built.wf.pointed lt
  rw [Node.width] at within
  rw [Node.addressOffset] at offset
  refine ⟨(l.hierarchy.node id).start + o, ?_, by omega, by omega, here⟩
  push_cast
  omega

/-- A slot whose origin is known has an element: null, unless a slot of an old vtable is carried
to its position. -/
theorem slotElement_of_origin (built : l.Built) (inMemory : l.hierarchy.InMemory) {o : Origin}
    (origin : l.HasOrigin c p o) :
    ∃ slot e, c.slots[p]? = some slot ∧ l.hierarchy.slotElement c.root slot = .ok e ∧
      ((∃ id r, l.CarriedTo c id r p) ∨ e = .null) := by
  cases origin with
  | filler _ here => exact ⟨_, .null, here, rfl, .inr rfl⟩
  | @padding id _ index defined _ _ hi here =>
    rw [← built.wf.signedWord_start inMemory defined] at hi
    exact ⟨_, .null, here, built.wf.slotElement_padding (Hierarchy.lt_size_of_isDefined defined)
      c.root hi, .inr rfl⟩
  | @slot id offset defined within hosted here translated =>
    have lt := Hierarchy.lt_size_of_isDefined defined
    have ordered := built.wf.pointed lt
    rw [Node.width] at within
    have lo : (l.hierarchy.node id).start ≤ (l.hierarchy.node id).start + offset :=
      Nat.le_add_right _ _
    have hi : (l.hierarchy.node id).start + offset ≤ (l.hierarchy.node id).last := by omega
    obtain ⟨e, -, element⟩ := built.wf.slotElement_of_le defined lo hi c.root
    refine ⟨_, e, here, element,
      .inl ⟨id, offset - (l.hierarchy.node id).addressOffset, defined, hosted, ?_⟩⟩
    obtain rfl := Except.ok.inj ((built.cloudOf id lt).symm.trans hosted)
    obtain ⟨ap, point, same⟩ := built.translate_iff defined
    refine ⟨ap, p - ap, point, (same _ _).mpr ?_, by omega⟩
    have sum : ((l.hierarchy.node id).addressOffset : Int) +
        (offset - (l.hierarchy.node id).addressOffset) = offset := by omega
    rw [sum, translated]
    congr 1
    omega

end Built

/-- What a filled table holds: as many elements as there are slots, at the new place of each
slot its old element, and null everywhere else. -/
structure Holds (l : Layouts) (c : CloudLayout) (t : Table) : Prop where
  length : t.elements.length = c.slots.length
  carried : ∀ id r d, l.hierarchy.isDefined id = true → l.cloudOf id = .ok c →
    l.translate (l.hierarchy.key id) r true = .ok d → ∃ (ap p : Nat) (e e' : Element),
      c.addressPointPosition? l.hierarchy (l.hierarchy.key id) = some ap ∧ (p : Int) = ap + d ∧
      l.hierarchy.element? (l.hierarchy.key id).className
        ((l.hierarchy.node id).addressPoint + r) = some e ∧
      t.elements[p]? = some e' ∧ e.WrittenAs c.root e'
  null : ∀ p < c.slots.length, (∀ id r, ¬ l.CarriedTo c id r p) → t.elements[p]? = some .null

/-- The table of a cloud can be filled. -/
theorem Built.materialize_holds (built : l.Built) (inMemory : l.hierarchy.InMemory)
    (lt : id < l.hierarchy.size) :
    ∃ t, materialize l.hierarchy (l.arrangedCloud id) = .ok t ∧ l.Holds (l.arrangedCloud id) t := by
  have each (p : Nat) (hp : p < (l.arrangedCloud id).slots.length) :=
    have ⟨_, origin⟩ := built.exists_origin lt hp
    built.slotElement_of_origin inMemory origin
  obtain ⟨t, ok⟩ : ∃ t, materialize l.hierarchy (l.arrangedCloud id) = .ok t := by
    refine materialize_of_forall fun slot hs => ?_
    obtain ⟨p, hp⟩ := List.mem_iff_getElem?.mp hs
    obtain ⟨slot', e, here, element, -⟩ := each p (List.getElem?_eq_some_iff.mp hp).1
    obtain rfl := Option.some.inj (hp.symm.trans here)
    exact ⟨e, element⟩
  obtain ⟨length, holds⟩ := materialize_ok ok
  refine ⟨t, ok, length, ?_, ?_⟩
  · intro k r d defined hosted translated
    have same := Except.ok.inj
      ((built.cloudOf k (Hierarchy.lt_size_of_isDefined defined)).symm.trans hosted)
    obtain ⟨ap, p, point, eq⟩ := built.position_of_translate defined translated
    rw [same] at point
    obtain ⟨n, index, lo, hi, here⟩ :=
      built.slot_of_carriedTo ⟨defined, hosted, ap, d, point, translated, eq⟩
    obtain ⟨e, original, element⟩ := built.wf.slotElement_of_le defined lo hi _
    obtain ⟨e', element', there⟩ := holds p _ here
    obtain rfl := Except.ok.inj (element.symm.trans element')
    exact ⟨ap, p, e, _, point, eq, index ▸ original, there, e.writtenAs_renamed _⟩
  · intro p hp free
    obtain ⟨slot, e, here, element, carried | rfl⟩ := each p hp
    · obtain ⟨k, r, carried⟩ := carried
      exact absurd carried (free k r)
    · obtain ⟨e', element', there⟩ := holds p slot here
      obtain rfl := Except.ok.inj (element.symm.trans element')
      exact there

end Layouts

/-- If the old vtables are in memory, all new tables can be filled: one for each root class, in
the order of their names. Each slot of a defined class that is translated has its old element at
the new place, where virtual thunks are replaced by clones, and every other position is null. -/
theorem materializeAll_contents {records : List ClassRecord} {h : Hierarchy}
    {options : LayoutOptions} {l : Layouts} (ingested : Hierarchy.ofRecords records = .ok h)
    (inMemory : h.InMemory) (laid : Layouts.build h options = .ok l) :
    ∃ tables, l.materializeAll = .ok tables ∧ tables.map (·.name) = h.roots.map ("_SD" ++ ·) ∧
      h.roots.Pairwise (· < ·) ∧ l.clouds.map (·.root) = h.roots ∧
      ∀ (i : Nat) (c : CloudLayout), l.clouds[i]? = some c →
        ∃ t, tables[i]? = some t ∧ l.Holds c t := by
  have wf := Hierarchy.wellFormed_of_ofRecords ingested
  obtain ⟨built, rfl, rfl⟩ := Layouts.built_of_build wf laid
  have each : ∀ c ∈ l.clouds, ∃ t, materialize l.hierarchy c = .ok t ∧ l.Holds c t := by
    intro c hc
    obtain ⟨id, lt, rfl⟩ := Layouts.arrangedCloud_of_mem wf laid hc
    exact built.materialize_holds inMemory lt
  obtain ⟨tables, filled⟩ := mapM_ok_of_exists fun c hc => (each c hc).imp fun _ => And.left
  obtain ⟨length, all⟩ := mapM_ok filled
  obtain ⟨-, -, -, mapped⟩ := Layouts.build_ok.mp laid
  have roots := Layouts.map_root_clouds wf mapped
  refine ⟨tables, filled, ?_, wf.sorted_roots, roots, ?_⟩
  · have names := map_of_mapM_ok (k := fun c => "_SD" ++ c.root) (g := (·.name)) filled
      fun c t ok => by
        obtain ⟨old, -, eq⟩ := bind_ok.mp ok
        obtain rfl := Except.ok.inj eq
        rfl
    rw [names, ← roots, List.map_map]
    rfl
  · intro i c hc
    obtain ⟨t, ht, ok⟩ := all i c hc
    obtain ⟨t', ok', holds⟩ := each c (List.mem_of_getElem? hc)
    obtain rfl := Except.ok.inj (ok.symm.trans ok')
    exact ⟨t, ht, holds⟩

/-- The slot after the address point of `Tip` holds the clone of a thunk. -/
theorem diamond_contents : ∃ l c tables t ap p,
    Layouts.build Diamond.hierarchy ⟨.ordered, 8⟩ = .ok l ∧ l.clouds[0]? = some c ∧
      l.materializeAll = .ok tables ∧ tables.map (·.name) = ["_SDBase"] ∧
      tables[0]? = some t ∧ t.elements.length = c.slots.length ∧
      c.addressPointPosition? Diamond.hierarchy (.primary "Tip") = some ap ∧
      l.translate (.primary "Tip") 1 true = .ok 1 ∧ p = ap + 1 ∧
      t.elements[p]? = some (.function "_SVTBase_ZTv0_n24_N3Tip1gEv") := by
  obtain ⟨l, laid⟩ : ∃ l, Layouts.build Diamond.hierarchy ⟨.ordered, 8⟩ = .ok l := ⟨_, rfl⟩
  obtain ⟨tables, filled, names, -, -, holds⟩ := materializeAll_contents Diamond.ofRecords_records
    (by decide +kernel) laid
  obtain ⟨c, hc, root, hosted, translated⟩ : ∃ c, l.clouds[0]? = some c ∧ c.root = "Base" ∧
      l.cloudOf 3 = .ok c ∧ l.translate (.primary "Tip") 1 true = .ok 1 := by
    obtain rfl := Except.ok.inj laid
    exact ⟨_, rfl, rfl, rfl, rfl⟩
  have known : l.hierarchy = Diamond.hierarchy := (Layouts.build_ok.mp laid).2.1
  obtain ⟨t, first, length, carried, -⟩ := holds 0 c hc
  rw [known, root] at carried
  obtain ⟨ap, p, e, e', point, position, original, element, written⟩ :=
    carried 3 1 1 rfl hosted translated
  obtain rfl := Option.some.inj original
  cases written with
  | clone =>
    exact ⟨l, c, tables, t, ap, p, laid, hc, filled, names, first, length, point, translated,
      by omega, element⟩
  | kept plain => exact absurd (Or.inl (by decide)) (plain _ rfl)

end VtableCloud
