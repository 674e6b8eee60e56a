import VtableCloud.Proofs.Layout.Containment

/-!
# Which clouds the strategies accept

Containment is checked along the edges between defined nodes. In an ordered table this is all
that matters. In an interleaved table the distance between two slots of a member depends on the
members in the rounds between them, so that a short member can come between a parent and its
child. It gets there through a node that is undefined and was not compared with either.

* `carries_ordered`, `carries_interleaved`: when a later member has the slots of another at the
  same distances;
* `WellFormed.accepts_ordered`, `accepts_interleaved`: which clouds are accepted;
* `interleaved_accepts_iff`: what the interleaved strategy asks for beyond the ordered one.
-/

namespace VtableCloud

variable {members : List Member} {k l : Nat} {m m' : Member}

/-- In an ordered table no slot moves away from its address point. -/
theorem Strategy.carries_ordered (fewer : m.before ≤ m'.before) :
    ordered.Carries members k l m m' := by
  intro i _
  rw [place_ordered members k i, place_ordered members k m.before,
    place_ordered members l m'.before, place_ordered members l (m'.before - m.before + i)]
  omega

/-- In an interleaved table the slots of a member are moved equally in a later one, if the
defined members between them have enough slots after their address points. -/
theorem Strategy.carries_interleaved (own : m.Fits) (lt : k < l) (hm : members[k]? = some m)
    (hm' : members[l]? = some m')
    (fewer : ∀ j x, k ≤ j → j ≤ l → members[j]? = some x → m.before ≤ x.before) :
    interleaved.Carries members k l m m' ↔
      ∀ j x, k < j → j < l → members[j]? = some x → x.node.isDefined = true →
        m.after ≤ x.after := by
  have moved (i : Nat) := interleavedPlace_carried lt hm hm'
    (fewer l m' (Nat.le_of_lt lt) (Nat.le_refl l) hm') i
  have extent := own.extent_eq
  constructor
  · intro carried j x lo hi hx defined
    -- The last slot of the member is the one that is farthest from its address point.
    have last := (moved (m.extent - 1)).mp (carried (m.extent - 1) (by omega))
    obtain ⟨-, -, far⟩ := Member.reaches_iff.mp (last j x (Nat.le_of_lt lo) hi hx defined)
    omega
  · intro long i inside
    refine (moved i).mpr ?_
    intro j x lo hi hx defined
    have front := fewer j x lo (Nat.le_of_lt hi) hx
    have back : m.after ≤ x.after := by
      by_cases first : k = j
      · subst first
        obtain rfl := Option.some.inj (hm.symm.trans hx)
        exact Nat.le_refl _
      · exact long j x (by omega) hi hx defined
    exact Member.reaches_iff.mpr ⟨defined, by omega, by omega⟩

namespace Hierarchy

/-- A strategy lays out the cloud of a root class. -/
def Accepts (h : Hierarchy) (strategy : Strategy) (wordWidth : Nat) (root : String) : Prop :=
  ∃ c, h.layoutCloud ⟨strategy, wordWidth⟩ root = .ok c

/-- In the cloud of a root, a later child keeps the slots after the address point of its parent,
if both are defined. -/
def Contained (h : Hierarchy) (root : NodeId) : Prop :=
  ∀ i j a c, h.LaterChild root i j a c → h.isDefined a = true → h.isDefined c = true →
    h.after a ≤ h.after c

/-- In the cloud of a root, what stands between a node and a later child of it keeps the slots
after the address point of the node, if all three are defined. -/
def Unbroken (h : Hierarchy) (root : NodeId) : Prop :=
  ∀ i j a c, h.LaterChild root i j a c → h.isDefined a = true → h.isDefined c = true →
    ∀ k x, i < k → k < j → (h.preorder root)[k]? = some x → h.isDefined x = true →
      h.after a ≤ h.after x

variable {h : Hierarchy} {root : NodeId} {name : String} {wordWidth : Nat}

theorem WellFormed.fits_of_accepts (wf : h.WellFormed) (found : h.rootId name = .ok root)
    {strategy : Strategy} (accepted : h.Accepts strategy wordWidth name) :
    h.Fits ⟨strategy, wordWidth⟩ root := by
  obtain ⟨c, ok⟩ := accepted
  obtain ⟨-, id, found', fits, -⟩ := wf.layoutCloud_ok.mp ok
  exact Except.ok.inj (found'.symm.trans found) ▸ fits

theorem WellFormed.accepts_iff_contained (wf : h.WellFormed) (positive : 0 < wordWidth)
    (found : h.rootId name = .ok root) {strategy : Strategy}
    (fits : h.Fits ⟨strategy, wordWidth⟩ root) :
    h.Accepts strategy wordWidth name ↔
      (h.arrangedCloud ⟨strategy, wordWidth⟩ root).checkContainment h = .ok () := by
  simp only [Accepts, wf.layoutCloud_ok, found, positive, true_and, Except.ok.injEq]
  constructor
  · rintro ⟨_, _, rfl, -, rfl, contained⟩
    exact contained
  · exact fun contained => ⟨_, root, rfl, fits, rfl, contained⟩

/-- A cloud whose numbers fit is accepted if children keep the slots of their parents, and the
strategy moves them equally. -/
theorem WellFormed.accepts_iff (wf : h.WellFormed) (positive : 0 < wordWidth)
    (found : h.rootId name = .ok root) {strategy : Strategy}
    (fits : h.Fits ⟨strategy, wordWidth⟩ root) :
    h.Accepts strategy wordWidth name ↔ h.Contained root ∧
      ∀ (i j : Nat) (m m' : Member), (h.paddedMembers root)[i]? = some m →
        (h.paddedMembers root)[j]? = some m' → h.LaterChild root i j m.id m'.id →
        m.node.isDefined = true → m'.node.isDefined = true →
        strategy.Carries (h.paddedMembers root) i j m m' := by
  rw [wf.accepts_iff_contained positive found fits, wf.checkContainment_iff fits]
  constructor
  · intro kept
    refine ⟨?_, fun i j m m' hm hm' later here there =>
      (kept i j m m' hm hm' later here there).2⟩
    intro i j a c later here there
    obtain ⟨m, hm, rfl, -⟩ := member_of_place later.atParent
    obtain ⟨m', hm', rfl, -⟩ := member_of_place later.atChild
    rw [← isDefined_of_getElem? hm] at here
    rw [← isDefined_of_getElem? hm'] at there
    rw [← after_of_getElem? hm, ← after_of_getElem? hm']
    exact (kept i j m m' hm hm' later here there).1
  · rintro ⟨contained, carried⟩ i j m m' hm hm' later here there
    refine ⟨?_, carried i j m m' hm hm' later here there⟩
    rw [after_of_getElem? hm, after_of_getElem? hm']
    rw [isDefined_of_getElem? hm] at here
    rw [isDefined_of_getElem? hm'] at there
    exact contained i j m.id m'.id later here there

theorem WellFormed.accepts_ordered (wf : h.WellFormed) (positive : 0 < wordWidth)
    (found : h.rootId name = .ok root) (fits : h.Fits ⟨.ordered, wordWidth⟩ root) :
    h.Accepts .ordered wordWidth name ↔ h.Contained root := by
  rw [wf.accepts_iff positive found fits, and_iff_left_iff_imp]
  intro _ i j m m' hm hm' later _ _
  apply Strategy.carries_ordered
  exact later.before_le hm hm' (Nat.le_of_lt later.before) (Nat.le_refl j)

theorem WellFormed.accepts_interleaved (wf : h.WellFormed) (positive : 0 < wordWidth)
    (found : h.rootId name = .ok root) (fits : h.Fits ⟨.interleaved, wordWidth⟩ root) :
    h.Accepts .interleaved wordWidth name ↔ h.Contained root ∧ h.Unbroken root := by
  have sep := wf.separate_paddedMembers fits
  have between {i j : Nat} {m m' : Member} (hm : (h.paddedMembers root)[i]? = some m)
      (hm' : (h.paddedMembers root)[j]? = some m') (later : h.LaterChild root i j m.id m'.id)
      (defined : m.node.isDefined = true) :=
    Strategy.carries_interleaved (sep.fits m (List.mem_of_getElem? hm) defined) later.before hm hm'
      fun k x lo hi hx => later.before_le hm hx lo hi
  rw [wf.accepts_iff positive found fits]
  refine and_congr_right fun _ => ?_
  constructor
  · intro carried i j a c later here there k x lo hi hx defined
    obtain ⟨m, hm, rfl, -⟩ := member_of_place later.atParent
    obtain ⟨m', hm', rfl, -⟩ := member_of_place later.atChild
    obtain ⟨y, hy, rfl, -⟩ := member_of_place hx
    rw [← isDefined_of_getElem? hm] at here
    rw [← isDefined_of_getElem? hm'] at there
    rw [← isDefined_of_getElem? hy] at defined
    rw [← after_of_getElem? hm, ← after_of_getElem? hy]
    have carries := carried i j m m' hm hm' later here there
    exact (between hm hm' later here).mp carries k y lo hi hy defined
  · intro unbroken i j m m' hm hm' later here there
    refine (between hm hm' later here).mpr ?_
    intro k x lo hi hx defined
    rw [isDefined_of_getElem? hm] at here
    rw [isDefined_of_getElem? hm'] at there
    rw [isDefined_of_getElem? hx] at defined
    rw [after_of_getElem? hm, after_of_getElem? hx]
    exact unbroken i j m.id m'.id later here there k x.id lo hi (getElem?_members hx).1 defined

/-- If later children keep the slots of their parents, so does all that stands between them. -/
theorem unbroken_of_kept (keeps : ∀ i j a c, h.LaterChild root i j a c → h.after a ≤ h.after c) :
    h.Unbroken root := by
  intro i j a c later _ _ k x lo hi hx _
  obtain ⟨m, hm, rfl, -⟩ := member_of_place later.atParent
  obtain ⟨y, hy, rfl, -⟩ := member_of_place hx
  have path := later.forward k (Nat.le_of_lt lo) (Nat.le_of_lt hi)
  rw [← after_of_getElem? hm, ← after_of_getElem? hy]
  exact (fitsIn_of_forward keeps path hm hy).2

end Hierarchy

/-- The ordered strategy accepts a cloud just if its numbers fit and defined nodes keep the slots
of defined parents that come before them. The interleaved one, for which fewer numbers have to
fit, asks this of the defined nodes that stand between the two as well. If the numbers fit both, and
undefined nodes keep the slots of their parents, and their children keep theirs, the strategies
accept the same clouds. Whatever is refused though its numbers fit, some child does not keep the
slots of its parent. -/
theorem interleaved_accepts_iff {records : List ClassRecord} {h : Hierarchy} {root : String}
    {wordWidth : Nat} (ingested : Hierarchy.ofRecords records = .ok h)
    (positive : 0 < wordWidth) (hr : root ∈ h.roots) :
    ∃ id, h.rootId root = .ok id ∧
      (h.Accepts .ordered wordWidth root ↔ h.Fits ⟨.ordered, wordWidth⟩ id ∧ h.Contained id) ∧
      (h.Accepts .interleaved wordWidth root ↔
        h.Fits ⟨.interleaved, wordWidth⟩ id ∧ h.Contained id ∧ h.Unbroken id) ∧
      (h.Fits ⟨.ordered, wordWidth⟩ id →
        (∀ i j a c, h.LaterChild id i j a c → h.isDefined a = false ∨ h.isDefined c = false →
          h.after a ≤ h.after c) →
        (h.Accepts .ordered wordWidth root ↔ h.Accepts .interleaved wordWidth root)) ∧
      ∀ strategy, h.Fits ⟨strategy, wordWidth⟩ id → ¬ h.Accepts strategy wordWidth root →
        ∃ i j a c, h.LaterChild id i j a c ∧ h.after c < h.after a := by
  have wf := Hierarchy.wellFormed_of_ofRecords ingested
  obtain ⟨id, -, found, -⟩ := wf.rootId_of_mem hr
  have ordered := wf.accepts_ordered positive found
  have interleaved := wf.accepts_interleaved positive found
  have fits {strategy : Strategy} (accepted : h.Accepts strategy wordWidth root) :=
    wf.fits_of_accepts found accepted
  refine ⟨id, found, ?_, ?_, ?_, ?_⟩
  · exact ⟨fun ok => ⟨fits ok, (ordered (fits ok)).mp ok⟩, fun ⟨f, kept⟩ => (ordered f).mpr kept⟩
  · exact ⟨fun ok => ⟨fits ok, (interleaved (fits ok)).mp ok⟩,
      fun ⟨f, kept⟩ => (interleaved f).mpr kept⟩
  · intro words undefined
    rw [interleaved words.interleaved, ordered words]
    refine ⟨fun contained => ⟨contained, ?_⟩, And.left⟩
    apply Hierarchy.unbroken_of_kept
    intro i j a c later
    by_cases both : h.isDefined a = true ∧ h.isDefined c = true
    · exact contained i j a c later both.1 both.2
    · apply undefined i j a c later
      exact (not_and_or.mp both).imp Bool.eq_false_iff.mpr Bool.eq_false_iff.mpr
  · intro strategy words refused
    -- If no later child were shorter than its parent, both strategies would accept the cloud.
    by_contra kept
    have keeps : ∀ i j a c, h.LaterChild id i j a c → h.after a ≤ h.after c := by
      intro i j a c later
      by_contra short
      exact kept ⟨i, j, a, c, later, Nat.lt_of_not_le short⟩
    have contained : h.Contained id := fun i j a c later _ _ => keeps i j a c later
    apply refused
    cases strategy with
    | ordered => exact (ordered words).mpr contained
    | interleaved => exact (interleaved words).mpr ⟨contained, Hierarchy.unbroken_of_kept keeps⟩

namespace Shortened

/-- A class with two subclasses. One of them is emitted elsewhere, where it lacks a slot of the
class, and so does the class below it. -/
def records : List ClassRecord := [
  ⟨"Base", [⟨0, .empty, 0, 1, 0, []⟩], [.null, .null], true⟩,
  ⟨"Mid", [⟨0, .ofList [.primary "Base"], 0, 0, 0, []⟩], [], false⟩,
  ⟨"Leaf", [⟨0, .ofList [.primary "Mid"], 0, 0, 0, []⟩], [.null], true⟩,
  ⟨"Side", [⟨0, .ofList [.primary "Base"], 0, 1, 0, []⟩], [.null, .null], true⟩]

end Shortened

/-- The class below stands between the first class and its other subclass. -/
theorem shortened_broken : ∃ h, Hierarchy.ofRecords Shortened.records = .ok h ∧
    h.Fits ⟨.ordered, 8⟩ 0 ∧ h.Contained 0 ∧ ¬ h.Unbroken 0 ∧
    ∃ i j a c, h.LaterChild 0 i j a c ∧ h.after c < h.after a := by
  obtain ⟨h, ingested⟩ : ∃ h, Hierarchy.ofRecords Shortened.records = .ok h := ⟨_, rfl⟩
  have accepted : h.Accepts .ordered 8 "Base" := by
    cases ingested
    exact ⟨_, rfl⟩
  have refused : ¬ h.Accepts .interleaved 8 "Base" := by
    cases ingested
    rintro ⟨_, ok⟩
    cases ok
  have root : h.rootId "Base" = .ok 0 := by
    cases ingested
    rfl
  obtain ⟨id, found, ordered, interleaved, -, short⟩ := interleaved_accepts_iff ingested
    (by decide : 0 < 8) (by cases ingested; decide : "Base" ∈ h.roots)
  obtain rfl := Except.ok.inj (found.symm.trans root)
  obtain ⟨fits, contained⟩ := ordered.mp accepted
  refine ⟨h, ingested, fits, contained, ?_, short .interleaved fits.interleaved refused⟩
  exact fun unbroken => refused (interleaved.mpr ⟨fits.interleaved, contained, unbroken⟩)

/-- Only one of the strategies accepts this. -/
theorem shortened_accepted_ordered : ∃ h, Hierarchy.ofRecords Shortened.records = .ok h ∧
    "Base" ∈ h.roots ∧ (∃ c, h.layoutCloud ⟨.ordered, 8⟩ "Base" = .ok c) ∧
    h.layoutCloud ⟨.interleaved, 8⟩ "Base" =
      .error (.invariantViolation "Base" (.primary "Side") (.moved (.primary "Base") 1 3 2)) :=
  ⟨_, rfl, by decide, ⟨_, rfl⟩, rfl⟩

end VtableCloud
