import VtableCloud.Proofs.Hierarchy.Monotone
import VtableCloud.Proofs.Hierarchy.Upcast

/-!
# Ancestry orders the known keys

Whether a key inherits from another is searched upwards, and what inherits from a key is listed
downwards. Both answers are the same relation, and since no class inherits from itself it is a
partial order.

* `knows_iff`, `mem_preorderKeys_iff`: known keys, and those listed below one;
* `Inherits.refl`, `Inherits.trans`, `WellFormed.inherits_antisymm`: inheritance between known keys;
* `orderedByAncestry_of_ofRecords`: the upward search and the downward listing agree in every
  hierarchy built from records, and order its keys.
-/

namespace VtableCloud

/-- Two nodes of an acyclic graph that reach each other are one. -/
theorem Digraph.Acyclic.eq_of_reaches {g : Digraph} (acyclic : g.Acyclic) {a b : Nat}
    (there : g.Reaches a b) (back : g.Reaches b a) : a = b := by
  cases there with
  | refl => rfl
  | step edge rest => exact absurd ⟨_, edge, rest.trans back⟩ (acyclic a)

namespace Hierarchy

variable {h : Hierarchy} {a b c : SubVtableKey}

/-- Ancestry as a relation between keys. -/
structure OrderedByAncestry (h : Hierarchy) : Prop where
  /-- The search upwards from a key meets those that are known and list it below them. -/
  upward_iff_downward : ∀ b d, h.isAncestor b d = true ↔ h.knows b = true ∧ h.knows d = true ∧
    ∃ keys, h.preorderKeys b = .ok keys ∧ d ∈ keys
  reflexive : ∀ b, h.knows b = true → h.isAncestor b b = true
  transitive : ∀ a b c, h.isAncestor a b = true → h.isAncestor b c = true →
    h.isAncestor a c = true
  antisymmetric : ∀ b d, h.isAncestor b d = true → h.isAncestor d b = true → b = d

theorem knows_iff : h.knows a = true ↔ ∃ id, h.find? a = some id := Option.isSome_iff_exists

theorem preorderKeys_ok {keys : List SubVtableKey} :
    h.preorderKeys a = .ok keys ↔
      ∃ id, h.find? a = some id ∧ keys = (h.preorder id).map h.key := by
  rw [preorderKeys, nodeId]
  cases h.find? a with
  | none =>
    constructor
    · intro ok
      cases ok
    · rintro ⟨id, found, -⟩
      cases found
  | some id =>
    constructor
    · intro ok
      exact ⟨id, rfl, (Except.ok.inj ok).symm⟩
    · rintro ⟨id', same, rfl⟩
      cases same
      rfl

namespace Inherits

theorem refl (known : h.knows a = true) : h.Inherits a a := by
  obtain ⟨id, found⟩ := knows_iff.mp known
  exact ⟨id, id, found, found, .refl id⟩

theorem trans (upper : h.Inherits a b) (lower : h.Inherits b c) : h.Inherits a c := by
  obtain ⟨i, j, hi, hj, ij⟩ := upper
  obtain ⟨j', k, hj', hk, jk⟩ := lower
  obtain rfl := Option.some.inj (hj.symm.trans hj')
  exact ⟨i, k, hi, hk, Digraph.Reaches.trans ij jk⟩

end Inherits

namespace WellFormed

/-- Two keys that inherit from each other are one. -/
theorem inherits_antisymm (wf : h.WellFormed) (there : h.Inherits a b) (back : h.Inherits b a) :
    a = b := by
  obtain ⟨i, j, hi, hj, ij⟩ := there
  obtain ⟨j', i', hj', hi', ji⟩ := back
  obtain rfl := Option.some.inj (hi.symm.trans hi')
  obtain rfl := Option.some.inj (hj.symm.trans hj')
  obtain rfl := wf.acyclic_childGraph.eq_of_reaches ij ji
  exact (wf.find?_eq_some.mp hi).2.symm.trans (wf.find?_eq_some.mp hj).2

/-- A known key lists those that inherit from it. -/
theorem mem_preorderKeys_iff (wf : h.WellFormed) :
    (∃ keys, h.preorderKeys a = .ok keys ∧ b ∈ keys) ↔ h.Inherits a b := by
  constructor
  · rintro ⟨keys, listed, member⟩
    obtain ⟨i, hi, rfl⟩ := preorderKeys_ok.mp listed
    obtain ⟨j, hj, rfl⟩ := List.mem_map.mp member
    have path := mem_preorder.mp hj
    have lt := wf.lt_size_of_descends path (wf.find?_eq_some.mp hi).1
    exact ⟨i, j, hi, wf.find?_key lt, path⟩
  · rintro ⟨i, j, hi, hj, path⟩
    refine ⟨_, preorderKeys_ok.mpr ⟨i, hi, rfl⟩, ?_⟩
    rw [← (wf.find?_eq_some.mp hj).2]
    exact List.mem_map_of_mem (mem_preorder.mpr path)

end WellFormed

end Hierarchy

/-- In a hierarchy built from records a key is an ancestor of another if both are known and the
other is listed below it, and this is a partial order of the known keys. -/
theorem orderedByAncestry_of_ofRecords {records : List ClassRecord} {h : Hierarchy}
    (ingested : Hierarchy.ofRecords records = .ok h) : h.OrderedByAncestry := by
  have wf := Hierarchy.wellFormed_of_ofRecords ingested
  constructor
  case upward_iff_downward =>
    intro b d
    rw [wf.mem_preorderKeys_iff, wf.isAncestor_iff]
    constructor
    · rintro ⟨i, j, hi, hj, path⟩
      exact ⟨Hierarchy.knows_iff.mpr ⟨i, hi⟩, Hierarchy.knows_iff.mpr ⟨j, hj⟩, i, j, hi, hj, path⟩
    · exact fun ⟨_, _, inherits⟩ => inherits
  case reflexive =>
    intro b known
    exact wf.isAncestor_iff.mpr (.refl known)
  case transitive =>
    intro a b c upper lower
    apply wf.isAncestor_iff.mpr
    exact (wf.isAncestor_iff.mp upper).trans (wf.isAncestor_iff.mp lower)
  case antisymmetric =>
    intro b d there back
    exact wf.inherits_antisymm (wf.isAncestor_iff.mp there) (wf.isAncestor_iff.mp back)

/-- The class at the tip inherits from the one at the base and not the other way round, neither side
inherits from the other, and a key that is not known does not even inherit from itself. -/
theorem diamond_ancestry : Diamond.hierarchy.OrderedByAncestry ∧
    Diamond.hierarchy.isAncestor (.primary "Base") (.primary "Tip") = true ∧
    Diamond.hierarchy.isAncestor (.primary "Tip") (.primary "Base") = false ∧
    Diamond.hierarchy.isAncestor (.primary "Left") (.primary "Right") = false ∧
    Diamond.hierarchy.isAncestor ⟨"Tip", 1⟩ ⟨"Tip", 1⟩ = false := by
  refine ⟨orderedByAncestry_of_ofRecords Diamond.ofRecords_records, ?_⟩
  decide +kernel

end VtableCloud
