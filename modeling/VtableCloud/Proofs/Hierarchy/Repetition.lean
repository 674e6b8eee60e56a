import VtableCloud.Layouts.Basic
import VtableCloud.Proofs.Hierarchy.ClosedWorld

/-!
# Records in any order, and repeated

A class may be described by several records. What they come to depends only on which records
there are. Whether they are taken up depends on their order as well, in one point: a record is
compared with the one that stands for its class so far, and once that is a definition nobody
sees whether two declarations differ.

* `Kept`: the record that stands for its class;
* `Agreeing`, `Settled`: what the records of a class have in common, and what they have in
  common because of their order;
* `Gathered.step`, `gathered_of_collectRecords`: what one more record and what all of them lead to;
* `collectRecords_eq`: records taken up in two orders come to the same;
* `ofRecords_reordered`: if some order of records is accepted, the orders that are accepted are
  those in which declarations are settled;
* `ofRecords_canonical`: the hierarchy and its layouts do not depend on the order.
-/

namespace VtableCloud

/-- Two records have the same sub-vtables, and if both are definitions they are equal. -/
def ClassRecord.Agrees (a b : ClassRecord) : Prop :=
  a.subVtables = b.subVtables ∧ (a.isDefined = true → b.isDefined = true → a = b)

/-- Records of one class agree. -/
def Agreeing (records : List ClassRecord) : Prop :=
  ∀ a ∈ records, ∀ b ∈ records, a.name = b.name → a.Agrees b

/-- A declaration that no definition of its class comes before is equal to the declarations of
the class that come before it. -/
def Settled (records : List ClassRecord) : Prop :=
  ∀ before new after, records = before ++ new :: after → new.isDefined = false →
    (∀ r ∈ before, r.name = new.name → r.isDefined = false) →
    ∀ old ∈ before, old.name = new.name → old = new

/-- A record is a definition, or a declaration of a class without one. -/
def Kept (records : List ClassRecord) (r : ClassRecord) : Prop :=
  r ∈ records ∧ (r.isDefined = false → ∀ d ∈ records, d.name = r.name → d.isDefined = false)

variable {xs ys taken out next : List ClassRecord} {old new : ClassRecord}

theorem ClassRecord.Agrees.refl (a : ClassRecord) : a.Agrees a := ⟨rfl, fun _ _ => rfl⟩

theorem ClassRecord.Agrees.symm {a b : ClassRecord} (agree : a.Agrees b) : b.Agrees a :=
  ⟨agree.1.symm, fun first second => (agree.2 second first).symm⟩

theorem Agreeing.mono (agreeing : Agreeing ys) (sub : ∀ r ∈ xs, r ∈ ys) : Agreeing xs :=
  fun a ha b hb name => agreeing a (sub a ha) b (sub b hb) name

theorem Agreeing.snoc (agreeing : Agreeing taken)
    (last : ∀ r ∈ taken, r.name = new.name → r.Agrees new) : Agreeing (taken ++ [new]) := by
  intro a ha b hb name
  simp only [List.mem_append, List.mem_singleton] at ha hb
  rcases ha with ha | rfl <;> rcases hb with hb | rfl
  · exact agreeing a ha b hb name
  · exact last a ha name
  · exact (last b hb name.symm).symm
  · exact .refl b

theorem Settled.snoc (settled : Settled taken)
    (last : new.isDefined = false → (∀ r ∈ taken, r.name = new.name → r.isDefined = false) →
      ∀ r ∈ taken, r.name = new.name → r = new) : Settled (taken ++ [new]) := by
  intro before r after split
  rcases List.eq_nil_or_concat after with rfl | ⟨front, x, rfl⟩
  · obtain ⟨rfl, same⟩ := List.append_inj' split rfl
    obtain rfl : new = r := (List.cons.inj same).1
    exact last
  · rw [List.concat_eq_append, ← List.cons_append, ← List.append_assoc] at split
    exact settled before r front (List.append_inj' split rfl).1

theorem kept_congr (same : ∀ r, r ∈ xs ↔ r ∈ ys) (r : ClassRecord) : Kept xs r ↔ Kept ys r := by
  simp only [Kept, same]

/-- A definition stands for its class. -/
theorem Kept.of_isDefined {r : ClassRecord} (hr : r ∈ xs) (defined : r.isDefined = true) :
    Kept xs r := by
  refine ⟨hr, fun missing => ?_⟩
  rw [defined] at missing
  cases missing

/-- What stands for a class that has a definition is one. -/
theorem Kept.isDefined {k d : ClassRecord} (hk : Kept xs k) (hd : d ∈ xs) (name : d.name = k.name)
    (defined : d.isDefined = true) : k.isDefined = true := by
  cases missing : k.isDefined with
  | true => rfl
  | false =>
    have none := hk.2 missing d hd name
    rw [defined] at none
    cases none

/-- Some record stands for each class. -/
theorem exists_kept {r : ClassRecord} (hr : r ∈ xs) : ∃ k, Kept xs k ∧ k.name = r.name := by
  by_cases defined : ∃ d ∈ xs, d.name = r.name ∧ d.isDefined = true
  · obtain ⟨d, hd, name, here⟩ := defined
    exact ⟨d, .of_isDefined hd here, name⟩
  · refine ⟨r, ⟨hr, ?_⟩, rfl⟩
    intro _ d hd name
    apply Bool.eq_false_iff.mpr
    intro here
    exact defined ⟨d, hd, name, here⟩

/-- Declarations of a class without a definition are equal. -/
theorem Settled.eq (settled : Settled xs) {a b : ClassRecord} (ha : a ∈ xs) (hb : b ∈ xs)
    (name : a.name = b.name) (none : ∀ d ∈ xs, d.name = a.name → d.isDefined = false) : a = b := by
  -- The later of the two is equal to the earlier.
  have later {x y : ClassRecord} {before after : List ClassRecord}
      (split : xs = before ++ y :: after) (early : x ∈ before) (nameX : x.name = a.name)
      (nameY : y.name = a.name) : x = y := by
    have last : y.isDefined = false := none y (by simp [split]) nameY
    refine settled before y after split last ?_ x early (nameX.trans nameY.symm)
    intro r hr nameR
    exact none r (by simp [split, hr]) (nameR.trans nameY)
  obtain ⟨before, after, split⟩ := List.append_of_mem hb
  rw [split] at ha
  rcases List.mem_append.mp ha with early | late
  · exact later split early rfl name.symm
  · rcases List.mem_cons.mp late with here | late
    · exact here
    · obtain ⟨front, back, rfl⟩ := List.append_of_mem late
      have split' : xs = (before ++ b :: front) ++ a :: back := by simp [split]
      exact (later split' (by simp) name.symm rfl).symm

/-- The first record of a class stands for it, and those of other classes for theirs. -/
theorem kept_snoc_fresh (other : ∀ r ∈ taken, r.name ≠ new.name) (r : ClassRecord) :
    Kept (taken ++ [new]) r ↔ r = new ∨ Kept taken r := by
  simp only [Kept, List.mem_append, List.mem_singleton]
  constructor
  · rintro ⟨hr | rfl, none⟩
    · exact Or.inr ⟨hr, fun missing d hd => none missing d (Or.inl hd)⟩
    · exact Or.inl rfl
  · rintro (rfl | ⟨hr, none⟩)
    · refine ⟨Or.inr rfl, fun missing d hd name => ?_⟩
      rcases hd with hd | rfl
      · exact absurd name (other d hd)
      · exact missing
    · refine ⟨Or.inl hr, fun missing d hd name => ?_⟩
      rcases hd with hd | rfl
      · exact none missing d hd name
      · exact absurd name.symm (other r hr)

/-- No more than one record stands for a class. -/
theorem Kept.unique (agreeing : Agreeing xs) (settled : Settled xs) {a b : ClassRecord}
    (ha : Kept xs a) (hb : Kept xs b) (name : a.name = b.name) : a = b := by
  cases first : a.isDefined with
  | false => exact settled.eq ha.1 hb.1 name (ha.2 first)
  | true => exact (agreeing a ha.1 b hb.1 name).2 first (hb.isDefined ha.1 name first)

/-! ## One more record -/

/-- Two records of a class go together: they are equal, or one declares what the other
defines. -/
def ClassRecord.Joins (old new : ClassRecord) : Prop :=
  old = new ∨ (old.subVtables = new.subVtables ∧ old.isDefined ≠ new.isDefined)

theorem ClassRecord.merge?_of_joins (joins : old.Joins new) :
    old.merge? new = some (if new.isDefined then new else old) := by
  rw [ClassRecord.merge?]
  split
  · rename_i same
    simp [same]
  · rename_i other
    rw [if_pos (joins.resolve_left other)]

theorem ClassRecord.merge?_of_not_joins (apart : ¬ old.Joins new) : old.merge? new = none := by
  obtain ⟨other, differs⟩ := not_or.mp apart
  rw [ClassRecord.merge?, if_neg other, if_neg differs]

/-- Records of earlier names are passed by. -/
theorem placeRecord_append {before rest : List ClassRecord}
    (early : ∀ r ∈ before, r.name < new.name) :
    placeRecord new (before ++ rest) = (before ++ ·) <$> placeRecord new rest := by
  induction before with
  | nil =>
    rw [List.nil_append]
    cases placeRecord new rest <;> rfl
  | cons r before ih =>
    have first := early r (by simp)
    have notBefore : ¬ new.name < r.name := fun lt =>
      String.lt_irrefl _ (String.lt_trans lt first)
    have other : ¬ new.name = r.name := fun same => String.lt_irrefl _ (same ▸ first)
    rw [List.cons_append, placeRecord, if_neg notBefore, if_neg other,
      ih fun q hq => early q (List.mem_cons_of_mem r hq)]
    cases placeRecord new rest <;> rfl

/-- A record meets the one of its class that has been taken up. -/
theorem placeRecord_met {before after : List ClassRecord}
    (sorted : (before ++ old :: after).Pairwise fun a b => a.name < b.name)
    (name : old.name = new.name) : placeRecord new (before ++ old :: after) =
      match old.merge? new with
      | some merged => .ok (before ++ merged :: after)
      | none => .error (.conflictingRecords new.name) := by
  have early : ∀ r ∈ before, r.name < new.name := by
    intro r hr
    rw [← name]
    exact (List.pairwise_append.mp sorted).2.2 r hr old (by simp)
  rw [placeRecord_append early, placeRecord, if_neg (name ▸ String.lt_irrefl _),
    if_pos name.symm]
  cases old.merge? new <;> rfl

/-- Putting a record in the place of another of its class leaves the records of other classes. -/
theorem mem_replaced {before after : List ClassRecord} {merged : ClassRecord}
    (sorted : (before ++ old :: after).Pairwise fun a b => a.name < b.name) (r : ClassRecord) :
    r ∈ before ++ merged :: after ↔
      r = merged ∨ (r ∈ before ++ old :: after ∧ r.name ≠ old.name) := by
  obtain ⟨-, sortedRest, early⟩ := List.pairwise_append.mp sorted
  have late := (List.pairwise_cons.mp sortedRest).1
  simp only [List.mem_append, List.mem_cons]
  constructor
  · rintro (hr | rfl | hr)
    · refine Or.inr ⟨Or.inl hr, fun same => ?_⟩
      exact String.lt_irrefl _ (same ▸ early r hr old (by simp))
    · exact Or.inl rfl
    · refine Or.inr ⟨Or.inr (Or.inr hr), fun same => ?_⟩
      exact String.lt_irrefl _ (same ▸ late r hr)
  · rintro (rfl | ⟨hr | rfl | hr, other⟩)
    · exact Or.inr (Or.inl rfl)
    · exact Or.inl hr
    · exact absurd rfl other
    · exact Or.inr (Or.inr hr)

/-- What some records have come to: the record that stands for each class, in name order. -/
structure Gathered (taken out : List ClassRecord) : Prop where
  sorted : out.Pairwise fun a b => a.name < b.name
  kept : ∀ r, r ∈ out ↔ Kept taken r
  faultless : Faultless taken
  agreeing : Agreeing taken
  settled : Settled taken

namespace Gathered

theorem start : Gathered [] [] where
  sorted := .nil
  kept := by simp [Kept]
  faultless := by simp [Faultless]
  agreeing := by simp [Agreeing]
  settled := by simp [Settled]

/-- A record that goes together with the one that stands for its class agrees with all records
of the class, and settles them. -/
theorem joined (g : Gathered taken out) (hold : Kept taken old) (name : old.name = new.name)
    (joins : old.Joins new) : Agreeing (taken ++ [new]) ∧ Settled (taken ++ [new]) := by
  constructor
  · apply g.agreeing.snoc
    intro r hr nameR
    have agree := g.agreeing r hr old hold.1 (nameR.trans name.symm)
    have subVtables : old.subVtables = new.subVtables := by
      rcases joins with rfl | differs
      · rfl
      · exact differs.1
    refine ⟨agree.1.trans subVtables, ?_⟩
    -- If both are definitions so is the record that stands for the class, and all three are equal.
    intro first second
    have here := hold.isDefined hr (nameR.trans name.symm) first
    rw [agree.2 first here]
    exact joins.resolve_right fun differs => differs.2 (here.trans second.symm)
  · apply g.settled.snoc
    -- Without a definition so far, the record that stands for the class is a declaration as well.
    intro missing none r hr nameR
    have same : old = new :=
      joins.resolve_right fun differs => differs.2 ((none old hold.1 name).trans missing.symm)
    rw [← same] at nameR none
    exact (g.settled.eq hr hold.1 nameR (nameR ▸ none)).trans same

/-- What stands for the classes when one more record has been taken up. -/
theorem kept_snoc (g : Gathered taken out) (hold : Kept taken old) (name : old.name = new.name)
    (joins : old.Joins new) (r : ClassRecord) : Kept (taken ++ [new]) r ↔
      r = (if new.isDefined then new else old) ∨ (Kept taken r ∧ r.name ≠ new.name) := by
  obtain ⟨agreeing, settled⟩ := g.joined hold name joins
  have merged : Kept (taken ++ [new]) (if new.isDefined then new else old) ∧
      (if new.isDefined then new else old).name = new.name := by
    cases second : new.isDefined with
    | true => exact ⟨.of_isDefined (by simp) second, rfl⟩
    | false =>
      refine ⟨⟨List.mem_append_left _ hold.1, fun missing d hd nameD => ?_⟩, name⟩
      rcases List.mem_append.mp hd with hd | hd
      · exact hold.2 missing d hd nameD
      · rw [List.mem_singleton.mp hd]
        exact second
  constructor
  · intro hr
    by_cases same : r.name = new.name
    · exact Or.inl (hr.unique agreeing settled merged.1 (same.trans merged.2.symm))
    · refine Or.inr ⟨⟨?_, fun missing d hd => hr.2 missing d (List.mem_append_left _ hd)⟩, same⟩
      rcases List.mem_append.mp hr.1 with old | last
      · exact old
      · exact absurd (congrArg ClassRecord.name (List.mem_singleton.mp last)) same
  · rintro (rfl | ⟨hr, other⟩)
    · exact merged.1
    · refine ⟨List.mem_append_left _ hr.1, fun missing d hd nameD => ?_⟩
      rcases List.mem_append.mp hd with hd | hd
      · exact hr.2 missing d hd nameD
      · rw [List.mem_singleton.mp hd] at nameD
        exact absurd nameD.symm other

/-- What taking up one more record without a defect comes to. -/
inductive Taking (taken out : List ClassRecord) (new : ClassRecord) :
    Except HierarchyError (List ClassRecord) → Prop
  | fresh {next : List ClassRecord} (other : ∀ r ∈ taken, r.name ≠ new.name)
      (perm : next.Perm (new :: out)) (placed : placeRecord new out = .ok next) :
      Taking taken out new (.ok next)
  | joined {before after : List ClassRecord} {old : ClassRecord}
      (split : out = before ++ old :: after) (hold : Kept taken old) (name : old.name = new.name)
      (joins : old.Joins new) :
      Taking taken out new (.ok (before ++ (if new.isDefined then new else old) :: after))
  | refused {old : ClassRecord} (hold : Kept taken old) (name : old.name = new.name)
      (apart : ¬ old.Joins new) : Taking taken out new (.error (.conflictingRecords new.name))

theorem taking (g : Gathered taken out) (sound : new.defect? = none) :
    Taking taken out new (collectRecord out new) := by
  have placing : collectRecord out new = placeRecord new out := by
    rw [collectRecord, sound]
  rw [placing]
  by_cases met : ∃ r ∈ taken, r.name = new.name
  · obtain ⟨r, hr, nameR⟩ := met
    obtain ⟨old, hold, nameOld⟩ := exists_kept hr
    have name := nameOld.trans nameR
    obtain ⟨before, after, split⟩ := List.append_of_mem ((g.kept old).mpr hold)
    rw [split, placeRecord_met (split ▸ g.sorted) name]
    by_cases joins : old.Joins new
    · rw [ClassRecord.merge?_of_joins joins]
      exact .joined rfl hold name joins
    · rw [ClassRecord.merge?_of_not_joins joins]
      exact .refused hold name joins
  · have other : ∀ r ∈ taken, r.name ≠ new.name := fun r hr name => met ⟨r, hr, name⟩
    obtain ⟨next, placed, perm⟩ := perm_placeRecord fun r hr => other r ((g.kept r).mp hr).1
    rw [placed]
    exact .fresh other perm placed

/-- One more record is taken up. -/
theorem step (g : Gathered taken out) (h : collectRecord out new = .ok next) :
    Gathered (taken ++ [new]) next := by
  have sound : new.defect? = none := by
    cases found : new.defect? with
    | none => rfl
    | some defect =>
      rw [collectRecord, found] at h
      cases h
  have faultless : Faultless (taken ++ [new]) := by
    intro r hr
    rcases List.mem_append.mp hr with hr | hr
    · exact g.faultless r hr
    · exact List.mem_singleton.mp hr ▸ sound
  have result := g.taking sound
  rw [h] at result
  cases result with
  | fresh other perm placed =>
    refine ⟨sorted_placeRecord g.sorted placed, fun r => ?_, faultless, ?_, ?_⟩
    · rw [perm.mem_iff, List.mem_cons, g.kept, kept_snoc_fresh other]
    · exact g.agreeing.snoc fun r hr name => absurd name (other r hr)
    · exact g.settled.snoc fun _ _ r hr name => absurd name (other r hr)
  | @joined before after old split hold name joins =>
    obtain ⟨agreeing, settled⟩ := g.joined hold name joins
    have merged : (if new.isDefined then new else old).name = old.name := by
      split <;> simp [name]
    have sorted := g.sorted
    rw [split] at sorted
    refine ⟨?_, fun r => ?_, faultless, agreeing, settled⟩
    · rw [← List.pairwise_map] at sorted ⊢
      simpa [merged] using sorted
    · rw [g.kept_snoc hold name joins, ← g.kept, split, mem_replaced sorted, name]

/-- A record without a defect is only refused if it declares its class otherwise than the
record that stands for the class, and that is a declaration too. -/
theorem refused (g : Gathered taken out) (sound : new.defect? = none)
    (agreeing : Agreeing (taken ++ [new])) {e : HierarchyError}
    (h : collectRecord out new = .error e) :
    e = .conflictingRecords new.name ∧ new.isDefined = false ∧
      ∃ old, Kept taken old ∧ old.name = new.name ∧ old.isDefined = false ∧ old ≠ new := by
  have result := g.taking sound
  rw [h] at result
  cases result with
  | @refused old hold name apart =>
    obtain ⟨other, alike⟩ := not_or.mp apart
    have agree := agreeing old (by simp [hold.1]) new (by simp) name
    have same : old.isDefined = new.isDefined := by
      by_contra differs
      exact alike ⟨agree.1, differs⟩
    have missing : new.isDefined = false := by
      apply Bool.eq_false_iff.mpr
      intro here
      exact other (agree.2 (same.trans here) here)
    exact ⟨rfl, missing, old, hold, name, same.trans missing, other⟩

theorem run {rest : List ClassRecord} : ∀ {taken out last : List ClassRecord},
    Gathered taken out → rest.foldlM collectRecord out = .ok last →
    Gathered (taken ++ rest) last := by
  induction rest with
  | nil =>
    intro taken out last g h
    obtain rfl : out = last := Except.ok.inj h
    rw [List.append_nil]
    exact g
  | cons new rest ih =>
    intro taken out last g h
    rw [List.foldlM_cons] at h
    obtain ⟨next, first, h⟩ := bind_ok.mp h
    have g' := ih (g.step first) h
    rwa [List.append_assoc] at g'

end Gathered

theorem gathered_of_collectRecords (h : collectRecords xs = .ok out) : Gathered xs out :=
  Gathered.start.run h

/-- Records that are taken up in two orders come to the same. -/
theorem collectRecords_eq {out' : List ClassRecord} (same : ∀ r, r ∈ xs ↔ r ∈ ys)
    (first : collectRecords xs = .ok out) (second : collectRecords ys = .ok out') : out = out' := by
  have g := gathered_of_collectRecords first
  have g' := gathered_of_collectRecords second
  have once {records : List ClassRecord} (sorted : records.Pairwise fun a b => a.name < b.name) :
      records.Nodup := by
    apply sorted.imp
    rintro a _ lt rfl
    exact String.lt_irrefl _ lt
  have members : ∀ r, r ∈ out ↔ r ∈ out' := by
    intro r
    rw [g.kept, g'.kept]
    exact kept_congr same r
  apply List.Perm.eq_of_pairwise ?_ g.sorted g'.sorted
  · exact (List.perm_ext_iff_of_nodup (once g.sorted) (once g'.sorted)).mpr members
  · intro a b _ _ lt gt
    exact absurd (String.lt_trans lt gt) (String.lt_irrefl _)

/-- Agreeing records without a defect are taken up, unless a declaration differs from one before
it that no definition hides. -/
theorem collectRecords_or_conflict (faultless : Faultless xs) (agreeing : Agreeing xs) :
    (∃ out, collectRecords xs = .ok out) ∨
      ¬ Settled xs ∧ ∃ old ∈ xs, ∃ new ∈ xs, old.name = new.name ∧ old.isDefined = false ∧
        new.isDefined = false ∧ old ≠ new ∧
        collectRecords xs = .error (.conflictingRecords new.name) := by
  cases result : collectRecords xs with
  | ok out => exact Or.inl ⟨out, rfl⟩
  | error e =>
    obtain ⟨before, new, after, out, rfl, passed, failed⟩ := foldlM_error result
    have g := gathered_of_collectRecords passed
    have prior : Agreeing (before ++ [new]) := agreeing.mono (by simp +contextual [or_imp])
    obtain ⟨rfl, missing, old, hold, name, declared, other⟩ :=
      g.refused (faultless new (by simp)) prior failed
    refine Or.inr ⟨fun settled => ?_, old, by simp [hold.1], new, by simp, name, declared, missing,
      other, rfl⟩
    have none : ∀ r ∈ before, r.name = new.name → r.isDefined = false := by
      rw [← name]
      exact hold.2 declared
    exact other (settled before new after rfl missing none old hold.1 name)

/-! ## Hierarchies -/

/-- The base of the diamond as it is described where it is not emitted. -/
def Diamond.declared : ClassRecord := ⟨"Base", [⟨0, .empty, 0, 2, 2, []⟩], [], false⟩

theorem ofRecords_congr (same : collectRecords xs = collectRecords ys) :
    Hierarchy.ofRecords xs = Hierarchy.ofRecords ys := by
  rw [Hierarchy.ofRecords, Hierarchy.ofRecords, same]

/-- If records are accepted in some order, then in another order, or repeated otherwise, they
are accepted just if their declarations are settled. If not, the error is about two declarations
of a class that differ. -/
theorem ofRecords_reordered {h : Hierarchy} (same : ∀ r, r ∈ xs ↔ r ∈ ys)
    (accepted : Hierarchy.ofRecords xs = .ok h) :
    ((∃ h', Hierarchy.ofRecords ys = .ok h') ↔ Settled ys) ∧
    (¬ Settled ys → ∃ old ∈ ys, ∃ new ∈ ys, old.name = new.name ∧ old.isDefined = false ∧
      new.isDefined = false ∧ old ≠ new ∧
      Hierarchy.ofRecords ys = .error (.conflictingRecords new.name)) := by
  obtain ⟨-, -, taken, -⟩ := Hierarchy.ofRecords_ok accepted
  have g := gathered_of_collectRecords taken
  have faultless : Faultless ys := fun r hr => g.faultless r ((same r).mpr hr)
  have agreeing : Agreeing ys := g.agreeing.mono fun r hr => (same r).mpr hr
  rcases collectRecords_or_conflict faultless agreeing with ⟨out, taken'⟩ | ⟨unsettled, conflict⟩
  · have settled := (gathered_of_collectRecords taken').settled
    have equal : collectRecords ys = collectRecords xs := by
      rw [taken, taken', collectRecords_eq same taken taken']
    refine ⟨⟨fun _ => settled, fun _ => ⟨h, ?_⟩⟩, fun unsettled => absurd settled unsettled⟩
    rw [ofRecords_congr equal]
    exact accepted
  · obtain ⟨old, hold, new, hnew, name, declared, declared', other, conflict⟩ := conflict
    have failed : Hierarchy.ofRecords ys = .error (.conflictingRecords new.name) := by
      rw [Hierarchy.ofRecords, conflict]
      rfl
    refine ⟨⟨?_, fun settled => absurd settled unsettled⟩, fun _ =>
      ⟨old, hold, new, hnew, name, declared, declared', other, failed⟩⟩
    rintro ⟨h', ok⟩
    rw [failed] at ok
    cases ok

namespace Redeclared

/-- A class that is emitted elsewhere. -/
def bare : ClassRecord := ⟨"Base", [⟨0, .empty, 0, 1, 0, []⟩], [], false⟩

/-- The same with an element, which nothing asks of a class that is emitted elsewhere. -/
def partly : ClassRecord := { bare with elements := [.null] }

/-- The class where it is emitted. -/
def full : ClassRecord := { bare with elements := [.null, .null], isDefined := true }

end Redeclared

/-- Behind the definition the two declarations do not meet. -/
theorem redeclared_behind_definition :
    (∀ r, r ∈ [Redeclared.bare, Redeclared.full, Redeclared.partly] ↔
        r ∈ [Redeclared.bare, Redeclared.partly, Redeclared.full]) ∧
      (∃ h, Hierarchy.ofRecords [Redeclared.bare, Redeclared.full, Redeclared.partly] = .ok h) ∧
      Hierarchy.ofRecords [Redeclared.bare, Redeclared.partly, Redeclared.full] =
        .error (.conflictingRecords "Base") := by
  refine ⟨fun r => ?_, ⟨_, rfl⟩, rfl⟩
  simp only [List.mem_cons]
  tauto

/-- With the definition first neither declaration meets the other; with both of them first they
do. -/
theorem redeclared_reordered :
    (∃ h, Hierarchy.ofRecords [Redeclared.bare, Redeclared.full, Redeclared.partly] = .ok h) ∧
      Settled [Redeclared.full, Redeclared.partly, Redeclared.bare, Redeclared.full] ∧
      ¬ Settled [Redeclared.bare, Redeclared.partly, Redeclared.full] := by
  obtain ⟨h, accepted⟩ : ∃ h, Hierarchy.ofRecords
      [Redeclared.bare, Redeclared.full, Redeclared.partly] = .ok h := ⟨_, rfl⟩
  have twice : ∀ r, r ∈ [Redeclared.bare, Redeclared.full, Redeclared.partly] ↔
      r ∈ [Redeclared.full, Redeclared.partly, Redeclared.bare, Redeclared.full] := by
    intro r
    simp only [List.mem_cons]
    tauto
  have last : ∀ r, r ∈ [Redeclared.bare, Redeclared.full, Redeclared.partly] ↔
      r ∈ [Redeclared.bare, Redeclared.partly, Redeclared.full] := by
    intro r
    simp only [List.mem_cons]
    tauto
  refine ⟨⟨h, accepted⟩, (ofRecords_reordered twice accepted).1.mp ⟨_, rfl⟩, ?_⟩
  intro settled
  obtain ⟨h', ok⟩ := (ofRecords_reordered last accepted).1.mpr settled
  cases ok

/-- The hierarchy does not depend on the order in which records are given or on how often. Its
records are those that stand for their classes, in name order, where a definition stands for
each class that has one, and all its layouts are the same. -/
theorem ofRecords_canonical {h h' : Hierarchy} (same : ∀ r, r ∈ xs ↔ r ∈ ys)
    (first : Hierarchy.ofRecords xs = .ok h) (second : Hierarchy.ofRecords ys = .ok h') :
    h = h' ∧ h.records.Pairwise (fun a b => a.name < b.name) ∧
      (∀ r, r ∈ h.records ↔ Kept xs r) ∧
      (∀ r ∈ xs, r.isDefined = true → h.record? r.name = some r) ∧
      ∀ options, Layouts.build h options = Layouts.build h' options := by
  obtain ⟨-, -, taken, -⟩ := Hierarchy.ofRecords_ok first
  obtain ⟨-, -, taken', -⟩ := Hierarchy.ofRecords_ok second
  have equal : collectRecords xs = collectRecords ys := by
    rw [taken, taken', collectRecords_eq same taken taken']
  obtain rfl : h = h' := by
    rw [ofRecords_congr equal, second] at first
    exact (Except.ok.inj first).symm
  have g := gathered_of_collectRecords taken
  refine ⟨rfl, g.sorted, g.kept, ?_, fun _ => rfl⟩
  intro r hr defined
  apply (Hierarchy.wellFormed_of_ofRecords first).record?_of_mem
  exact (g.kept r).mpr (.of_isDefined hr defined)

/-- The base of the diamond is declared last or first, and another class is given twice. -/
theorem diamond_canonical :
    ∃ h, Hierarchy.ofRecords (Diamond.records ++ [Diamond.declared]) = .ok h ∧
      Hierarchy.ofRecords (Diamond.declared :: (Diamond.records ++ Diamond.records.reverse)) =
        .ok h ∧ (h.record? "Base").map (·.isDefined) = some true := by
  have twice : ∀ r, r ∈ Diamond.records ++ [Diamond.declared] ↔
      r ∈ Diamond.declared :: (Diamond.records ++ Diamond.records.reverse) := by
    intro r
    simp only [List.mem_append, List.mem_cons, List.mem_reverse]
    tauto
  have last : Hierarchy.ofRecords (Diamond.records ++ [Diamond.declared]) =
      .ok Diamond.hierarchy := by rfl
  obtain ⟨h', front⟩ : ∃ h', Hierarchy.ofRecords
      (Diamond.declared :: (Diamond.records ++ Diamond.records.reverse)) = .ok h' := ⟨_, rfl⟩
  obtain ⟨rfl, -, -, kept, -⟩ := ofRecords_canonical twice last front
  have base : Diamond.hierarchy.record? "Base" = Diamond.records.head? :=
    kept (Diamond.records.head (by decide)) (List.mem_append_left _ (List.head_mem _)) rfl
  refine ⟨Diamond.hierarchy, last, front, ?_⟩
  rw [base]
  rfl

end VtableCloud
