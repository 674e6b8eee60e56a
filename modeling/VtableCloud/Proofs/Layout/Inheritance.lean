import VtableCloud.Proofs.Hierarchy.Monotone
import VtableCloud.Proofs.Layouts.Build

/-!
# Distances across generations

Code compiled against a class reaches slots by their distance from the address point, and
runs with objects of all classes that descend from it.

* `CloudLayout.position?`: where a layout has the slot at a distance from an address point;
* `WellFormed.distance_of_descends`: a later descendant has all slots of a defined class, its
  padding included, and has them at the same distances in the new table.
-/

namespace VtableCloud

/-- The new position of the slot of a sub-vtable at a distance from its address point. Slots
before the address point may be padding. -/
def CloudLayout.position? (c : CloudLayout) (h : Hierarchy) (key : SubVtableKey)
    (distance : Int) : Option Nat := do
  let p ← c.placement? key
  let offset : Int := (p.prePad + (h.node p.node).addressOffset : Nat) + distance
  if offset < 0 then none else p.positions[offset.toNat]?

namespace Hierarchy

variable {h : Hierarchy} {options : LayoutOptions} {root : NodeId}

theorem WellFormed.position?_of_place (wf : h.WellFormed) (fits : h.Fits options root) {k : Nat}
    {m : Member} (hm : (h.paddedMembers root)[k]? = some m) (defined : m.node.isDefined = true)
    {distance : Int} (lo : -(m.before : Int) ≤ distance) (hi : distance ≤ m.after) :
    (h.arrangedCloud options root).position? h (h.key m.id) distance =
      some (options.strategy.place (h.paddedMembers root) k (m.before + distance).toNat) := by
  have node := (getElem?_members hm).2.2
  have own := (wf.separate_paddedMembers fits).fits m (List.mem_of_getElem? hm) defined
  have before : m.pad + m.node.addressOffset = m.before := Nat.add_comm _ _
  have inside : (m.before + distance).toNat < m.extent := by
    rw [own.extent_eq]
    omega
  rw [CloudLayout.position?, key_of_getElem? hm, wf.placement?_arrangedCloud fits hm defined]
  simp only [Option.bind_eq_bind, Option.bind_some, ← node, before]
  rw [if_neg (by omega), List.getElem?_map, List.getElem?_range inside, Option.map_some]

/-- A defined class and a later defined descendant of it hold the slots of the class at the
same distances from their address points. -/
theorem WellFormed.distance_of_descends (wf : h.WellFormed) (mono : h.Monotone)
    (fits : h.Fits options root) {i j : Nat} {m m' : Member} (before : i < j)
    (hm : (h.paddedMembers root)[i]? = some m) (hm' : (h.paddedMembers root)[j]? = some m')
    (defined : m.node.isDefined = true) (defined' : m'.node.isDefined = true)
    (path : h.Descends m.id m'.id) {distance : Int} (lo : -(m.before : Int) ≤ distance)
    (hi : distance ≤ m.after) :
    ∃ p₀ p d₀ d : Nat,
      (h.arrangedCloud options root).position? h (h.key m.id) 0 = some p₀ ∧
      (h.arrangedCloud options root).position? h (h.key m.id) distance = some p ∧
      (h.arrangedCloud options root).position? h (h.key m'.id) 0 = some d₀ ∧
      (h.arrangedCloud options root).position? h (h.key m'.id) distance = some d ∧
      (d : Int) - d₀ = p - p₀ := by
  have within : ∀ (k : Nat) (x : Member), i ≤ k → k ≤ j → (h.paddedMembers root)[k]? = some x →
      m.FitsIn x := fun k x lo hi hx => fitsIn_of_descends wf mono hm hm' before path hx lo hi
  obtain ⟨fewer, shorter⟩ := within j m' (Nat.le_of_lt before) (Nat.le_refl j) hm'
  have own := (wf.separate_paddedMembers fits).fits m (List.mem_of_getElem? hm) defined
  refine ⟨_, _, _, _, wf.position?_of_place fits hm defined (by omega) (by omega),
    wf.position?_of_place fits hm defined lo hi,
    wf.position?_of_place fits hm' defined' (by omega) (by omega),
    wf.position?_of_place fits hm' defined' (by omega) (by omega), ?_⟩
  have carried := (wf.arranges_arrangedCloud fits).carried i j m m' before hm hm' defined
    defined' within (m.before + distance).toNat (by rw [own.extent_eq]; omega)
  have offset : m'.before - m.before + (m.before + distance).toNat =
      (m'.before + distance).toNat := by omega
  rw [offset] at carried
  simpa using carried

end Hierarchy

/-- A cloud of a monotone hierarchy is only refused because its numbers do not fit. In its layout,
every slot of a defined member, its padding included, has a counterpart in each defined member that
descends from it and comes later, at the same new distance from the address point. -/
theorem layoutCloud_keeps_distances {records : List ClassRecord} {h : Hierarchy}
    {options : LayoutOptions} {root : String} (ingested : Hierarchy.ofRecords records = .ok h)
    (mono : h.Monotone) (positive : 0 < options.wordWidth) :
    ((∃ c, h.layoutCloud options root = .ok c) ↔
      ∃ id, h.rootId root = .ok id ∧ h.Fits options id) ∧
    ∀ c, h.layoutCloud options root = .ok c →
      ∀ (i j : Nat) (p d : NodeId), i < j → c.preorder[i]? = some p → c.preorder[j]? = some d →
        h.isDefined p = true → h.isDefined d = true → h.Descends p d →
        ∃ place, c.placement? (h.key p) = some place ∧
          place.positions.length = place.prePad + (h.node p).width ∧
          ∀ r : Int, -((place.prePad + (h.node p).addressOffset : Nat) : Int) ≤ r →
            r ≤ (h.node p).last - (h.node p).addressPoint →
            ∃ p₀ pᵣ d₀ dᵣ : Nat,
              c.position? h (h.key p) 0 = some p₀ ∧ c.position? h (h.key p) r = some pᵣ ∧
              c.position? h (h.key d) 0 = some d₀ ∧ c.position? h (h.key d) r = some dᵣ ∧
              (dᵣ : Int) - d₀ = pᵣ - p₀ := by
  have wf := Hierarchy.wellFormed_of_ofRecords ingested
  have laid : ∀ {c}, h.layoutCloud options root = .ok c ↔
      ∃ id, h.rootId root = .ok id ∧ h.Fits options id ∧ c = h.arrangedCloud options id :=
    wf.layoutCloud_of_monotone mono positive
  refine ⟨⟨fun ⟨c, ok⟩ => ?_, fun ⟨id, ok, fits⟩ => ⟨_, laid.mpr ⟨id, ok, fits, rfl⟩⟩⟩, ?_⟩
  · obtain ⟨id, ok, fits, -⟩ := laid.mp ok
    exact ⟨id, ok, fits⟩
  intro c ok i j p d before hp hd defined defined' path
  obtain ⟨id, -, fits, rfl⟩ := laid.mp ok
  rw [Hierarchy.preorder_arrangedCloud] at hp hd
  obtain ⟨m, hm, rfl, node⟩ := Hierarchy.member_of_place hp
  obtain ⟨m', hm', rfl, node'⟩ := Hierarchy.member_of_place hd
  have here : m.node.isDefined = true := by rw [node]; exact defined
  have there : m'.node.isDefined = true := by rw [node']; exact defined'
  have own := (wf.separate_paddedMembers fits).fits m (List.mem_of_getElem? hm) here
  refine ⟨_, Hierarchy.key_of_getElem? hm ▸ wf.placement?_arrangedCloud fits hm here, ?_, ?_⟩
  · rw [List.length_map, List.length_range, own.extent_eq_width, node, Nat.add_comm]
  · intro r lo hi
    rw [← node] at lo hi
    have above : -(m.before : Int) ≤ r := by
      rw [Member.before, Nat.add_comm]
      exact lo
    have below : r ≤ m.after := by
      have := own.pointed.2
      rw [Member.after]
      omega
    exact wf.distance_of_descends mono fits before hm hm' here there path above below

/-- The slot two before the address point of `Base` is carried over to `Tip`. -/
theorem diamond_keeps_distances :
    ∃ c, Diamond.hierarchy.layoutCloud ⟨.interleaved, 8⟩ "Base" = .ok c ∧
      c.preorder = [0, 1, 3, 2] ∧
      ∃ p₀ pᵣ d₀ dᵣ : Nat,
        c.position? Diamond.hierarchy (.primary "Base") 0 = some p₀ ∧
        c.position? Diamond.hierarchy (.primary "Base") (-2) = some pᵣ ∧
        c.position? Diamond.hierarchy (.primary "Tip") 0 = some d₀ ∧
        c.position? Diamond.hierarchy (.primary "Tip") (-2) = some dᵣ ∧
        (dᵣ : Int) - d₀ = pᵣ - p₀ := by
  obtain ⟨accepted, keeps⟩ := @layoutCloud_keeps_distances Diamond.records Diamond.hierarchy
    ⟨.interleaved, 8⟩ "Base" Diamond.ofRecords_records Diamond.monotone (by decide)
  obtain ⟨c, laid⟩ := accepted.mpr ⟨0, by decide +kernel, by decide +kernel⟩
  obtain rfl : Diamond.hierarchy.arrangedCloud ⟨.interleaved, 8⟩ 0 = c := Except.ok.inj laid
  have path : Diamond.hierarchy.Descends 0 3 := Hierarchy.mem_preorder.mp (by decide +kernel)
  obtain ⟨place, placed, -, slots⟩ := keeps _ laid 0 2 0 3 (by decide) rfl rfl rfl rfl path
  obtain rfl := Option.some.inj placed
  exact ⟨_, laid, rfl, slots (-2) (by decide +kernel) (by decide +kernel)⟩

end VtableCloud
