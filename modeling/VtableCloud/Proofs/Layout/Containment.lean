import VtableCloud.Proofs.Layout.Cloud

/-!
# Children look like their parents

* `movedSlot?_eq_none`: no slot is found to be moved just if all are moved equally;
* `WellFormed.edgeViolation?_iff`: what a forward edge without a fault says of its ends;
* `WellFormed.checkContainment_iff`: which clouds are accepted;
* `WellFormed.checkContainment_arrangedCloud`: the clouds of a monotone hierarchy are.
-/

namespace VtableCloud

theorem distances_map_range {f : Nat → Nat} {before n : Nat} (inside : before < n) :
    distances before ((List.range n).map f) =
      (List.range n).map fun i => (f i : Int) - f before := by
  simp [distances, List.getD_eq_getElem?_getD, inside, Function.comp_def]

/-- If the child has all distances that the parent has, nothing is reported just if each slot of
the parent is moved equally in the child. -/
theorem movedSlot?_eq_none {parent : SubVtableKey} {before childBefore n childN : Nat}
    {f g : Nat → Nat} (inside : before < n) (childInside : childBefore < childN)
    (enough : childBefore - before + n ≤ childN) :
    movedSlot? parent before childBefore ((List.range n).map f) ((List.range childN).map g) =
      none ↔
    ∀ i < n, (g (childBefore - before + i) : Int) - g childBefore = f i - f before := by
  rw [movedSlot?, distances_map_range inside, distances_map_range childInside,
    Option.map_eq_none_iff, List.find?_eq_none]
  constructor
  · intro each i lt
    have there : childBefore - before + i < childN := by omega
    have compared : (((f i : Int) - f before,
        (g (childBefore - before + i) : Int) - g childBefore), i) ∈
          (((List.range n).map fun i => (f i : Int) - f before).zip
            (((List.range childN).map fun i => (g i : Int) - g childBefore).drop
              (childBefore - before))).zipIdx := by
      rw [List.mem_zipIdx_iff_getElem?, List.getElem?_zip_eq_some]
      simp [lt, there]
    have same : (f i : Int) - f before = g (childBefore - before + i) - g childBefore := by
      simpa using each _ compared
    exact same.symm
  · rintro carried ⟨⟨p, c⟩, i⟩ member
    have both := List.mem_zipIdx_iff_getElem?.mp member
    obtain ⟨inParent, inChild⟩ := List.getElem?_zip_eq_some.mp both
    rw [List.getElem?_drop] at inChild
    obtain ⟨lt, eq⟩ := List.getElem?_eq_some_iff.mp inParent
    obtain ⟨lt', eq'⟩ := List.getElem?_eq_some_iff.mp inChild
    have same := carried i (by simpa using lt)
    simp only [List.getElem_map, List.getElem_range] at eq eq'
    simp [← eq, ← eq', same]

/-- The slots of the member at a place are moved equally in the member at a later place, seen
from the address points. -/
def Strategy.Carries (strategy : Strategy) (members : List Member) (k l : Nat) (m m' : Member) :
    Prop :=
  ∀ i < m.extent, (strategy.place members l (m'.before - m.before + i) : Int) -
      strategy.place members l m'.before =
    strategy.place members k i - strategy.place members k m.before

namespace Hierarchy

variable {h : Hierarchy} {options : LayoutOptions} {root : NodeId}

/-- The comparison of two defined members, of which the later has no fewer slots before its
address point. -/
theorem edgeViolation?_eq_none {members : List Member} (strategy : Strategy) {i j : Nat}
    {m m' : Member} (own : m.Fits) (other : m'.Fits) (fewer : m.before ≤ m'.before) :
    VtableCloud.edgeViolation? m.node m'.node
      ⟨m.key, m.id, m.pad, (List.range m.extent).map (strategy.place members i)⟩
      ⟨m'.key, m'.id, m'.pad, (List.range m'.extent).map (strategy.place members j)⟩ = none ↔
    m.after ≤ m'.after ∧ strategy.Carries members i j m m' := by
  by_cases short : m'.after < m.after
  · have found : m'.before < m.before ∨ m'.after < m.after := Or.inr short
    refine iff_of_false ?_ fun kept => Nat.not_le_of_lt short kept.1
    exact fun none => Option.some_ne_none _ ((if_pos found).symm.trans none)
  · have enough : ¬ (m'.before < m.before ∨ m'.after < m.after) := by omega
    have within : m'.before - m.before + m.extent ≤ m'.extent := by
      rw [own.extent_eq, other.extent_eq]
      omega
    rw [and_iff_right (Nat.le_of_not_lt short)]
    refine (Eq.congr (if_neg enough) rfl).trans ?_
    exact movedSlot?_eq_none own.before_lt other.before_lt within

/-- A forward edge is not at fault if an end of it is undefined. Otherwise the child keeps the
slots of the parent, moved equally. -/
theorem WellFormed.edgeViolation?_iff (wf : h.WellFormed) (fits : h.Fits options root)
    {i j : Nat} {m m' : Member}
    (hm : (h.paddedMembers root)[i]? = some m) (hm' : (h.paddedMembers root)[j]? = some m')
    (later : h.LaterChild root i j m.id m'.id) :
    (h.arrangedCloud options root).edgeViolation? h (i, j) = none ↔
      (m.node.isDefined = true → m'.node.isDefined = true →
        m.after ≤ m'.after ∧ options.strategy.Carries (h.paddedMembers root) i j m m') := by
  have parent : h.node ((h.preorder root).getD i 0) = m.node := by
    simp [later.atParent, (getElem?_members hm).2.2]
  have child : h.node ((h.preorder root).getD j 0) = m'.node := by
    simp [later.atChild, (getElem?_members hm').2.2]
  simp only [CloudLayout.edgeViolation?, preorder_arrangedCloud, parent, child]
  rw [show m.node.key = m.key from rfl, show m'.node.key = m'.key from rfl]
  cases defined : m.node.isDefined with
  | false =>
    rw [wf.placement?_eq_none fits (List.mem_of_getElem? hm) defined]
    simp
  | true =>
    cases defined' : m'.node.isDefined with
    | false =>
      rw [wf.placement?_eq_none fits (List.mem_of_getElem? hm') defined']
      cases (h.arrangedCloud options root).placement? m.key <;> simp
    | true =>
      have fewer := later.before_le hm hm' (Nat.le_of_lt later.before) (Nat.le_refl j)
      rw [wf.placement?_arrangedCloud fits hm defined,
        wf.placement?_arrangedCloud fits hm' defined']
      simp only [Option.map_eq_none_iff, forall_const]
      have sep := wf.separate_paddedMembers fits
      exact edgeViolation?_eq_none options.strategy
        (sep.fits m (List.mem_of_getElem? hm) defined)
        (sep.fits m' (List.mem_of_getElem? hm') defined') fewer

/-- A cloud is accepted just if defined members keep the slots of defined parents that come
before them, moved equally. -/
theorem WellFormed.checkContainment_iff (wf : h.WellFormed) (fits : h.Fits options root) :
    (h.arrangedCloud options root).checkContainment h = .ok () ↔
      ∀ (i j : Nat) (m m' : Member), (h.paddedMembers root)[i]? = some m →
        (h.paddedMembers root)[j]? = some m' → h.LaterChild root i j m.id m'.id →
        m.node.isDefined = true → m'.node.isDefined = true →
        m.after ≤ m'.after ∧ options.strategy.Carries (h.paddedMembers root) i j m m' := by
  rw [CloudLayout.checkContainment, LayoutError.ofViolation_ok, List.findSome?_eq_none_iff,
    preorder_arrangedCloud]
  constructor
  · intro none i j m m' hm hm' later
    have edge := mem_forwardEdges_preorder.mpr ⟨_, _, later⟩
    exact (wf.edgeViolation?_iff fits hm hm' later).mp (none _ edge)
  · rintro kept ⟨i, j⟩ edge
    obtain ⟨a, c, later⟩ := mem_forwardEdges_preorder.mp edge
    obtain ⟨m, hm, rfl, -⟩ := member_of_place later.atParent
    obtain ⟨m', hm', rfl, -⟩ := member_of_place later.atChild
    exact (wf.edgeViolation?_iff fits hm hm' later).mpr (kept i j m m' hm hm' later)

/-- Whichever strategy arranged it, the cloud of a monotone hierarchy is accepted. -/
theorem WellFormed.checkContainment_arrangedCloud (wf : h.WellFormed) (mono : h.Monotone)
    (fits : h.Fits options root) :
    (h.arrangedCloud options root).checkContainment h = .ok () := by
  refine (wf.checkContainment_iff fits).mpr ?_
  intro i j m m' hm hm' later defined defined'
  have path := descends_of_mem_children later.edge
  have within : ∀ (k : Nat) (x : Member), i ≤ k → k ≤ j → (h.paddedMembers root)[k]? = some x →
      m.FitsIn x := fun k x lo hi hx =>
    fitsIn_of_descends wf mono hm hm' later.before path hx lo hi
  refine ⟨(within j m' (Nat.le_of_lt later.before) (Nat.le_refl j) hm').2, ?_⟩
  exact (wf.arranges_arrangedCloud fits).carried i j m m' later.before hm hm' defined
    defined' within

end Hierarchy

end VtableCloud
