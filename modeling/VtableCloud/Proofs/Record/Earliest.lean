import VtableCloud.Proofs.Record.Defect

/-!
# The earliest defect of a record

The checks stop at the first rule that is broken.

* `firstDefect?_eq_some`: they stop at the first sub-vtable that breaks a rule;
* `ClassRecord.HasDefect`: what a defect that is reported says of the record;
* `ClassRecord.hasDefect_of_defect?`: what is reported of a sub-vtable is true, and is about it;
* `ClassRecord.defect?_of_wellFormed`: nothing is reported of a well formed record;
* `ClassRecord.defect?_exact`: a record passes if it is well formed, and otherwise the earliest
  sub-vtable that breaks a rule is reported.
-/

namespace VtableCloud

/-- The checks stop at the first sub-vtable that is not sound. -/
theorem firstDefect?_eq_some {d : RecordDefect} {rest : List SubVtable} :
    ∀ {before : List SubVtable}, AllSound before →
    firstDefect? before.length (endOf before) rest = some d →
    ∃ front s back, before ++ rest = front ++ s :: back ∧ AllSound front ∧
      ¬ s.SoundBehind front ∧ s.defect? front.length (endOf front) = some d := by
  induction rest with
  | nil =>
    intro before _ stopped
    cases stopped
  | cons s rest ih =>
    intro before all stopped
    rw [firstDefect?] at stopped
    split at stopped
    · rename_i found
      obtain rfl := Option.some.inj stopped
      refine ⟨before, s, rest, rfl, all, fun sound => ?_, found⟩
      have none := SubVtable.defect?_eq_none_iff.mpr
        ((SubVtable.sound_iff_soundBehind all).mpr sound)
      rw [none] at found
      cases found
    · rename_i none
      have sound := (SubVtable.sound_iff_soundBehind all).mp (SubVtable.defect?_eq_none_iff.mp none)
      have next := ih (all.snoc sound)
      simp only [List.length_append, List.length_singleton, endOf, List.getLast?_concat,
        Option.map_some, List.append_assoc, List.singleton_append] at next
      exact next stopped

/-- The position of the sub-vtable that a defect is about, if it is about one. -/
def RecordDefect.position? : RecordDefect → Option Nat
  | .orderMismatch position _ => some position
  | .invertedRange order _ _ | .addressPointOutOfRange order _ _ _ | .overlap order _ _
  | .missingParents order | .functionOutOfRange order _ _ => some order
  | .noPrimary | .shortElements _ _ => none

namespace ClassRecord

variable {r : ClassRecord}

/-- What each kind of defect says of the record it is reported of. -/
inductive HasDefect (r : ClassRecord) : RecordDefect → Prop
  | noPrimary : r.subVtables = [] → HasDefect r .noPrimary
  | orderMismatch {i : Nat} {s : SubVtable} : r.subVtables[i]? = some s → s.order ≠ i →
      HasDefect r (.orderMismatch i s.order)
  | invertedRange {i : Nat} {s : SubVtable} : r.subVtables[i]? = some s → s.last < s.start →
      HasDefect r (.invertedRange i s.start s.last)
  | addressPointOutOfRange {i : Nat} {s : SubVtable} : r.subVtables[i]? = some s →
      ¬ (s.start ≤ s.addressPoint ∧ s.addressPoint ≤ s.last) →
      HasDefect r (.addressPointOutOfRange i s.start s.last s.addressPoint)
  | overlap {i : Nat} {s t : SubVtable} : r.subVtables[i]? = some t →
      r.subVtables[i + 1]? = some s → s.start ≤ t.last →
      HasDefect r (.overlap (i + 1) s.start t.last)
  | missingParents {i : Nat} {s : SubVtable} : r.subVtables[i]? = some s → 0 < i →
      s.parents.keys = [] → HasDefect r (.missingParents i)
  | functionOutOfRange {i : Nat} {s : SubVtable} {f : FunctionEntry} :
      r.subVtables[i]? = some s → f ∈ s.functions → s.width ≤ f.offset →
      HasDefect r (.functionOutOfRange i f.name f.offset)
  | shortElements {s : SubVtable} : r.isDefined = true → s ∈ r.subVtables →
      (∀ t ∈ r.subVtables, t.last.val ≤ s.last) → r.elements.length ≤ s.last →
      HasDefect r (.shortElements r.elements.length s.last)

/-- What is reported of a sub-vtable is true of the record, and is about this sub-vtable. -/
theorem hasDefect_of_defect? {front back : List SubVtable} {s : SubVtable} {d : RecordDefect}
    (split : r.subVtables = front ++ s :: back)
    (found : s.defect? front.length (endOf front) = some d) :
    r.HasDefect d ∧ d.position? = some front.length := by
  have here : r.subVtables[front.length]? = some s := by simp [split]
  rw [SubVtable.defect?] at found
  split at found
  · rename_i misnumbered
    obtain rfl := Option.some.inj found
    exact ⟨.orderMismatch here misnumbered, rfl⟩
  rename_i numbered
  rw [Classical.not_not.mp numbered] at found
  split at found
  · rename_i inverted
    obtain rfl := Option.some.inj found
    exact ⟨.invertedRange here inverted, rfl⟩
  split at found
  · rename_i outside
    obtain rfl := Option.some.inj found
    have outside := SubVtable.contains_iff.not.mp (Bool.eq_false_iff.mp outside)
    exact ⟨.addressPointOutOfRange here outside, rfl⟩
  split at found
  · rename_i previous overlapping
    obtain rfl := Option.some.inj found
    obtain ⟨last, within⟩ := Option.filter_eq_some_iff.mp overlapping
    obtain ⟨t, ht, rfl⟩ := Option.map_eq_some_iff.mp last
    obtain ⟨first, rfl⟩ := List.getLast?_eq_some_iff.mp ht
    have before : r.subVtables[first.length]? = some t := by simp [split]
    rw [List.length_append] at here ⊢
    exact ⟨.overlap before here (by simpa using within), rfl⟩
  split at found
  · rename_i orphan
    obtain rfl := Option.some.inj found
    exact ⟨.missingParents here orphan.1 orphan.2, rfl⟩
  · obtain ⟨f, first, rfl⟩ := Option.map_eq_some_iff.mp found
    have outside := List.find?_some first
    exact ⟨.functionOutOfRange here (List.mem_of_find?_eq_some first) (by simpa using outside), rfl⟩

/-- Some sub-vtable reaches the last slot of its class. -/
theorem exists_lastSlot (inhabited : r.subVtables ≠ []) :
    ∃ s ∈ r.subVtables, s.last = r.lastSlot := by
  cases reach : r.lastSlot with
  | zero =>
    obtain ⟨s, hs⟩ := List.exists_mem_of_ne_nil _ inhabited
    have le := last_le_lastSlot hs
    exact ⟨s, hs, by omega⟩
  | succ n =>
    have below : n < r.lastSlot := by omega
    obtain none | ⟨last, member, far⟩ := lt_foldl_max_iff.mp below
    · omega
    · obtain ⟨s, hs, rfl⟩ := List.mem_map.mp member
      have le := last_le_lastSlot hs
      exact ⟨s, hs, by omega⟩

theorem hasDefect_shortElements (defined : r.isDefined = true) (inhabited : r.subVtables ≠ [])
    (few : r.elements.length ≤ r.lastSlot) :
    r.HasDefect (.shortElements r.elements.length r.lastSlot) := by
  obtain ⟨s, hs, last⟩ := exists_lastSlot inhabited
  rw [← last] at few ⊢
  apply HasDefect.shortElements defined hs _ few
  intro t ht
  rw [last]
  exact last_le_lastSlot ht

/-- What stops the checks is true, and no sub-vtable before the one that it is about breaks a
rule. -/
theorem earliest_of_firstDefect? {d : RecordDefect}
    (stopped : firstDefect? 0 none r.subVtables = some d) :
    r.HasDefect d ∧ ∃ i, d.position? = some i ∧ ¬ SoundAt r.subVtables i ∧
      ∀ j < i, SoundAt r.subVtables j := by
  obtain ⟨front, s, back, split, all, unsound, found⟩ := firstDefect?_eq_some allSound_nil stopped
  rw [List.nil_append] at split
  obtain ⟨holds, position⟩ := hasDefect_of_defect? split found
  refine ⟨holds, front.length, position, ?_, ?_⟩
  · intro sound
    have behind := sound s (by simp [split])
    rw [split, List.take_left] at behind
    exact unsound behind
  · intro j before t ht
    rw [split, List.getElem?_append_left before] at ht
    rw [split, List.take_append_of_le_length (Nat.le_of_lt before)]
    exact all j t ht

/-- Every well formed record passes the checks. -/
theorem defect?_of_wellFormed (wf : r.WellFormed) : r.defect? = none := by
  obtain ⟨inhabited, all, elements⟩ := wellFormed_iff.mp wf
  rw [defect?, if_neg inhabited]
  cases checked : firstDefect? 0 none r.subVtables with
  | some d =>
    obtain ⟨-, i, -, unsound, -⟩ := earliest_of_firstDefect? checked
    exact absurd (all i) unsound
  | none =>
    apply if_neg
    rintro ⟨defined, few⟩
    obtain ⟨s, hs, last⟩ := exists_lastSlot inhabited
    have enough := elements defined s hs
    omega

/-- A record passes the checks just if it is well formed. A defect that is reported is true of the
record. It is about the earliest sub-vtable that breaks a rule, or about none if no sub-vtable
does. -/
theorem defect?_exact (r : ClassRecord) :
    (r.defect? = none ↔ r.WellFormed) ∧
    ∀ d, r.defect? = some d → r.HasDefect d ∧
      match d.position? with
      | some i => ¬ SoundAt r.subVtables i ∧ ∀ j < i, SoundAt r.subVtables j
      | none => AllSound r.subVtables := by
  refine ⟨⟨wellFormed_of_defect?, defect?_of_wellFormed⟩, fun d reported => ?_⟩
  unfold defect? at reported
  by_cases empty : r.subVtables = []
  · rw [if_pos empty] at reported
    obtain rfl := Option.some.inj reported
    exact ⟨.noPrimary empty, empty ▸ allSound_nil⟩
  rw [if_neg empty] at reported
  cases checked : firstDefect? 0 none r.subVtables with
  | some first =>
    rw [checked] at reported
    obtain rfl := Option.some.inj reported
    obtain ⟨holds, i, position, here, earlier⟩ := earliest_of_firstDefect? checked
    rw [position]
    exact ⟨holds, here, earlier⟩
  | none =>
    rw [checked] at reported
    obtain ⟨⟨defined, few⟩, eq⟩ := Option.ite_none_right_eq_some.mp reported
    obtain rfl := Option.some.inj eq
    exact ⟨hasDefect_shortElements defined empty few, allSound_of_firstDefect? allSound_nil checked⟩

end ClassRecord

end VtableCloud
