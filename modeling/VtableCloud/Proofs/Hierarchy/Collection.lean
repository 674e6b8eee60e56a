import VtableCloud.Hierarchy.Collection
import VtableCloud.Proofs.Attempt
import VtableCloud.Proofs.Record.Defect

/-!
# Collected records

Records that have been brought together stand in strictly increasing name order and have
no defect.

* `Collected` says so, and `collected_of_collectRecords` that collecting achieves it;
* `collectRecords_distinct`, `collectRecords_malformed`: records with different names are all
  taken up if none has a defect, and else the first that has one is the error.
-/

namespace VtableCloud

/-- Well formed records, one for each name, in name order. -/
structure Collected (records : List ClassRecord) : Prop where
  sorted : records.Pairwise fun a b => a.name < b.name
  wellFormed : ∀ r ∈ records, r.WellFormed

theorem name_trichotomy (a b : String) : a < b ∨ a = b ∨ b < a := by
  by_cases lt : a < b
  · exact Or.inl lt
  by_cases gt : b < a
  · exact Or.inr (Or.inr gt)
  exact Or.inr (Or.inl (String.le_antisymm (String.not_lt.mp gt) (String.not_lt.mp lt)))

theorem ClassRecord.merge?_eq {old new merged : ClassRecord} (h : old.merge? new = some merged) :
    merged = old ∨ merged = new := by
  rw [ClassRecord.merge?] at h
  split at h
  · exact Or.inl (Option.some.inj h).symm
  · split at h
    · split at h
      · exact Or.inr (Option.some.inj h).symm
      · exact Or.inl (Option.some.inj h).symm
    · cases h

theorem mem_placeRecord {new : ClassRecord} :
    ∀ {records out : List ClassRecord}, placeRecord new records = .ok out →
      ∀ r ∈ out, r ∈ records ∨ r = new := by
  intro records
  induction records with
  | nil =>
    intro out h r hr
    obtain rfl : [new] = out := Except.ok.inj h
    exact Or.inr (List.mem_singleton.mp hr)
  | cons old rest ih =>
    intro out h r hr
    rw [placeRecord] at h
    split at h
    · obtain rfl := Except.ok.inj h
      exact (List.mem_cons.mp hr).symm
    · split at h
      · split at h
        · rename_i merged eq
          obtain rfl := Except.ok.inj h
          rcases List.mem_cons.mp hr with rfl | hr
          · exact (ClassRecord.merge?_eq eq).imp (by rintro rfl; simp) id
          · exact Or.inl (List.mem_cons_of_mem old hr)
        · cases h
      · obtain ⟨more, hmore, rfl⟩ := map_ok.mp h
        rcases List.mem_cons.mp hr with rfl | hr
        · exact Or.inl (by simp)
        · exact (ih hmore r hr).imp (List.mem_cons_of_mem old) id

theorem sorted_placeRecord {new : ClassRecord} :
    ∀ {records out : List ClassRecord}, records.Pairwise (fun a b => a.name < b.name) →
      placeRecord new records = .ok out → out.Pairwise fun a b => a.name < b.name := by
  intro records
  induction records with
  | nil =>
    intro out _ h
    obtain rfl : [new] = out := Except.ok.inj h
    simp
  | cons old rest ih =>
    intro out sorted h
    obtain ⟨first, sortedRest⟩ := List.pairwise_cons.mp sorted
    rw [placeRecord] at h
    split at h
    · rename_i before
      obtain rfl := Except.ok.inj h
      refine List.pairwise_cons.mpr ⟨fun r hr => ?_, sorted⟩
      rcases List.mem_cons.mp hr with rfl | hr
      · exact before
      · exact String.lt_trans before (first r hr)
    · rename_i notBefore
      split at h
      · rename_i same
        split at h
        · rename_i merged eq
          obtain rfl := Except.ok.inj h
          have name : merged.name = old.name := by
            rcases ClassRecord.merge?_eq eq with rfl | rfl
            · rfl
            · exact same
          exact List.pairwise_cons.mpr ⟨fun r hr => name ▸ first r hr, sortedRest⟩
        · cases h
      · rename_i other
        obtain ⟨more, hmore, rfl⟩ := map_ok.mp h
        have after : old.name < new.name := by
          rcases name_trichotomy old.name new.name with lt | eq | gt
          · exact lt
          · exact absurd eq.symm other
          · exact absurd gt notBefore
        refine List.pairwise_cons.mpr ⟨fun r hr => ?_, ih sortedRest hmore⟩
        rcases mem_placeRecord hmore r hr with hr | rfl
        · exact first r hr
        · exact after

theorem collectRecord_keeps {records out : List ClassRecord} {new : ClassRecord}
    (inv : Collected records) (h : collectRecord records new = .ok out) : Collected out := by
  rw [collectRecord] at h
  split at h
  · cases h
  · rename_i none
    refine ⟨sorted_placeRecord inv.sorted h, fun r hr => ?_⟩
    rcases mem_placeRecord h r hr with hr | rfl
    · exact inv.wellFormed r hr
    · exact ClassRecord.wellFormed_of_defect? none

theorem collected_of_collectRecords {records out : List ClassRecord}
    (h : collectRecords records = .ok out) : Collected out :=
  foldlM_ok (fun _ _ _ => collectRecord_keeps) ⟨.nil, by simp⟩ h

/-! ## Records with different names -/

theorem perm_placeRecord {new : ClassRecord} :
    ∀ {records : List ClassRecord}, (∀ r ∈ records, r.name ≠ new.name) →
      ∃ out, placeRecord new records = .ok out ∧ out.Perm (new :: records) := by
  intro records
  induction records with
  | nil => exact fun _ => ⟨[new], rfl, .refl _⟩
  | cons old rest ih =>
    intro other
    have differs : ¬ new.name = old.name := fun same => other old (by simp) same.symm
    obtain ⟨out, placed, perm⟩ := ih fun r hr => other r (List.mem_cons_of_mem old hr)
    rw [placeRecord, if_neg differs, placed]
    split
    · exact ⟨_, rfl, .refl _⟩
    · exact ⟨_, rfl, (perm.cons old).trans (.swap new old rest)⟩

/-- Records without defects are taken up if their names differ from each other and from those
taken up before. -/
theorem foldlM_collectRecord_distinct {records : List ClassRecord} :
    ∀ {taken : List ClassRecord}, ((taken ++ records).map (·.name)).Nodup →
      (∀ r ∈ records, r.defect? = none) →
      ∃ out, records.foldlM collectRecord taken = .ok out ∧ out.Perm (taken ++ records) := by
  induction records with
  | nil =>
    intro taken _ _
    exact ⟨taken, rfl, by simp⟩
  | cons new rest ih =>
    intro taken distinct sound
    have other : ∀ r ∈ taken, r.name ≠ new.name := by
      intro r hr same
      rw [List.map_append, List.nodup_append] at distinct
      exact distinct.2.2 r.name (List.mem_map_of_mem hr) new.name (by simp) same
    obtain ⟨more, placed, perm⟩ := perm_placeRecord other
    have first : collectRecord taken new = .ok more := by
      rw [collectRecord, sound new (by simp)]
      exact placed
    have regroup : (more ++ rest).Perm (taken ++ new :: rest) :=
      (perm.append_right rest).trans List.perm_middle.symm
    obtain ⟨out, collected, perm'⟩ := ih ((regroup.map _).nodup_iff.mpr distinct)
      fun r hr => sound r (List.mem_cons_of_mem new hr)
    refine ⟨out, ?_, perm'.trans regroup⟩
    rw [List.foldlM_cons, first]
    exact collected

theorem collectRecords_distinct {records : List ClassRecord}
    (distinct : (records.map (·.name)).Nodup) (sound : ∀ r ∈ records, r.defect? = none) :
    ∃ out, collectRecords records = .ok out ∧ out.Perm records :=
  foldlM_collectRecord_distinct distinct sound

theorem collectRecords_malformed {before after : List ClassRecord} {r : ClassRecord}
    {defect : RecordDefect} (distinct : ((before ++ r :: after).map (·.name)).Nodup)
    (sound : ∀ q ∈ before, q.defect? = none) (found : r.defect? = some defect) :
    collectRecords (before ++ r :: after) = .error (.malformedRecord r.name defect) := by
  rw [List.map_append, List.nodup_append] at distinct
  obtain ⟨taken, collected, -⟩ := collectRecords_distinct distinct.1 sound
  have step : collectRecord taken r = .error (.malformedRecord r.name defect) := by
    rw [collectRecord, found]
  unfold collectRecords at collected ⊢
  rw [List.foldlM_append, collected]
  show (r :: after).foldlM collectRecord taken = _
  rw [List.foldlM_cons, step]
  rfl

end VtableCloud
