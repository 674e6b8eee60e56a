import Mathlib.Tactic.TFAE
import VtableCloud.Proofs.Layouts.Queries

/-!
# Classes that can be called

A call through a sub-vtable passes its check only if something defined descends from it.

* `Built.callable`: counts, representatives, translations and ranges tell the same sub-vtables
  apart;
* `ListsCallable`: a table that lists the classes that can be called;
* `callable_agrees`: all answers about what can be called agree.
-/

namespace VtableCloud

namespace Layouts

variable {l : Layouts} {id : NodeId}

/-- The entries are those of the classes whose primary sub-vtable counts something defined, in
name order and each once, with the name of the table that hosts it and its single range. -/
structure ListsCallable (l : Layouts) (entries : List RangeEntry) : Prop where
  sorted : (entries.map (·.className)).Pairwise (· < ·)
  listed : ∀ name, name ∈ entries.map (·.className) ↔
    ∃ id, l.hierarchy.find? (.primary name) = some id ∧ 0 < l.hierarchy.cloudSize id
  entry : ∀ e ∈ entries, ∃ id c, l.hierarchy.find? (.primary e.className) = some id ∧
    l.cloudOf id = .ok c ∧ e.table = c.tableName ∧
    l.rangeFor (.primary e.className) .single = .ok (some [e.range])

namespace Built

/-- The address point of the node that stands for a key is where it was, seen from itself. -/
theorem translate_zero (built : l.Built) {key : SubVtableKey}
    (found : l.hierarchy.find? key = some id) :
    l.translate key 0 true = .ok 0 ↔
      ∃ d, l.hierarchy.Descends id d ∧ l.hierarchy.isDefined d = true := by
  obtain below | undefined := l.hierarchy.defined_below_or_none id
  · apply iff_of_true _ below
    obtain ⟨d, path, defined⟩ := below
    obtain ⟨r, represented, -, here⟩ := Hierarchy.representative_of_descends path defined
    obtain ⟨k, m, hm, rfl, -, -⟩ := built.member_of_isDefined here
    rw [built.translate_of_place found represented hm (by omega) (by omega)]
    simp
  · simpa [built.translate_undefined found undefined] using undefined

theorem callable (built : l.Built) {key : SubVtableKey}
    (found : l.hierarchy.find? key = some id) :
    [∃ d, l.hierarchy.Descends id d ∧ l.hierarchy.isDefined d = true,
      0 < l.hierarchy.cloudSize id,
      ∃ r, l.hierarchy.representative id = .ok r,
      l.translate key 0 true = .ok 0,
      ∃ set, l.rangeFor key .single = .ok (some set),
      ∃ set, l.rangeFor key .precise = .ok (some set)].TFAE := by
  tfae_have 1 ↔ 2 := Hierarchy.cloudSize_pos.symm
  tfae_have 1 → 3 := by
    rintro ⟨d, path, defined⟩
    obtain ⟨r, represented, -⟩ := Hierarchy.representative_of_descends path defined
    exact ⟨r, represented⟩
  tfae_have 3 → 1 := by
    rintro ⟨r, represented⟩
    exact ⟨r, Hierarchy.representative_ok represented⟩
  tfae_have 1 ↔ 4 := (built.translate_zero found).symm
  tfae_have 1 ↔ 5 := (built.rangeFor_eq_some found .single).symm
  tfae_have 1 ↔ 6 := (built.rangeFor_eq_some found .precise).symm
  tfae_finish

/-- A class gives one entry or none, as something defined descends from its primary sub-vtable
or nothing does. -/
theorem runtimeEntries_cases (built : l.Built) {record : ClassRecord} {entries : List RangeEntry}
    (ok : l.runtimeEntries record = .ok entries) :
    (∃ id d range, l.hierarchy.find? (.primary record.name) = some id ∧
      l.hierarchy.Descends id d ∧ l.hierarchy.isDefined d = true ∧
      l.rangeFor (.primary record.name) .single = .ok (some [range]) ∧
      entries = [⟨record.name, (l.arrangedCloud id).tableName, range⟩]) ∨
    entries = [] := by
  obtain ⟨id, d, found, path, defined⟩ | none := l.defined_below_or_none (record.key 0)
  · obtain ⟨range, single, ok'⟩ := built.runtimeEntries_of_descends found path defined
    exact .inl ⟨id, d, range, found, path, defined, single, Except.ok.inj (ok.symm.trans ok')⟩
  · exact .inr (Except.ok.inj (ok.symm.trans (runtimeEntries_eq_nil none)))

/-- The class of a primary sub-vtable has a record. -/
theorem record_of_primary (built : l.Built) {name : String}
    (found : l.hierarchy.find? (.primary name) = some id) :
    ∃ record ∈ l.hierarchy.records, record.name = name := by
  obtain ⟨lt, key⟩ := built.wf.find?_eq_some.mp found
  obtain ⟨record, hr, s, -, named, -⟩ := built.wf.described _ (Hierarchy.node_mem lt)
  exact ⟨record, hr, congrArg SubVtableKey.className (named.symm.trans key)⟩

theorem listsCallable (built : l.Built) {entries : List RangeEntry}
    (ok : l.runtimeTable = .ok entries) : l.ListsCallable entries := by
  obtain ⟨lists, each, eq⟩ := bind_ok.mp ok
  obtain rfl := Except.ok.inj eq
  constructor
  case sorted =>
    have names : l.hierarchy.records.Pairwise fun a b => a.name < b.name :=
      built.wf.collected.sorted
    apply List.Pairwise.sublist _ (List.pairwise_map.mpr names)
    apply sublist_of_mapM_ok each
    intro record _ entries ok
    obtain ⟨_, _, _, -, -, -, -, rfl⟩ | rfl := built.runtimeEntries_cases ok
    · exact List.Sublist.refl _
    · exact List.nil_sublist _
  case listed =>
    intro name
    rw [List.mem_map]
    constructor
    · rintro ⟨e, he, rfl⟩
      obtain ⟨record, -, entries, ok, he⟩ := (mem_flatten_of_mapM_ok each).mp he
      obtain ⟨id, d, range, found, path, defined, -, rfl⟩ | rfl := built.runtimeEntries_cases ok
      · obtain rfl := List.mem_singleton.mp he
        exact ⟨id, found, Hierarchy.cloudSize_pos.mpr ⟨d, path, defined⟩⟩
      · cases he
    · rintro ⟨id, found, counted⟩
      obtain ⟨d, path, defined⟩ := Hierarchy.cloudSize_pos.mp counted
      obtain ⟨record, hr, rfl⟩ := built.record_of_primary found
      obtain ⟨range, -, ok⟩ := built.runtimeEntries_of_descends found path defined
      exact ⟨_, (mem_flatten_of_mapM_ok each).mpr ⟨record, hr, _, ok, List.mem_singleton.mpr rfl⟩,
        rfl⟩
  case entry =>
    intro e he
    obtain ⟨record, -, entries, ok, he⟩ := (mem_flatten_of_mapM_ok each).mp he
    obtain ⟨id, d, range, found, -, -, single, rfl⟩ | rfl := built.runtimeEntries_cases ok
    · obtain rfl := List.mem_singleton.mp he
      have lt := (built.wf.find?_eq_some.mp found).1
      exact ⟨id, _, found, built.cloudOf id lt, rfl, single⟩
    · cases he

end Built

end Layouts

/-- All answers about what can be called agree. A known key counts something defined just if it is
represented, if its address point is translated to itself, and if it has a single range or precise
ranges. The defined node that stands for it is the key's own, or else the first in preorder. The
runtime table lists the classes whose primary sub-vtable can be called. -/
theorem callable_agrees {records : List ClassRecord} {h : Hierarchy} {options : LayoutOptions}
    {l : Layouts} (ingested : Hierarchy.ofRecords records = .ok h)
    (laid : Layouts.build h options = .ok l) :
    (∀ key id, h.find? key = some id →
      [∃ d, h.Descends id d ∧ h.isDefined d = true,
        0 < h.cloudSize id,
        ∃ r, h.representative id = .ok r,
        l.translate key 0 true = .ok 0,
        ∃ set, l.rangeFor key .single = .ok (some set),
        ∃ set, l.rangeFor key .precise = .ok (some set)].TFAE ∧
      ∀ r, h.representative id = .ok r → h.isDefined r = true ∧ h.Descends id r ∧
        (h.isDefined id = true → r = id) ∧ (h.preorder id).find? (h.isDefined ·) = some r) ∧
    ∃ entries, l.runtimeTable = .ok entries ∧ l.ListsCallable entries := by
  have wf := Hierarchy.wellFormed_of_ofRecords ingested
  obtain ⟨built, rfl, rfl⟩ := Layouts.built_of_build wf laid
  constructor
  · intro key id found
    apply And.intro (built.callable found)
    intro r represented
    obtain ⟨path, defined⟩ := Hierarchy.representative_ok represented
    refine ⟨defined, path, ?_, Hierarchy.representative_eq_ok.mp represented⟩
    intro here
    rw [Hierarchy.representative_self here] at represented
    exact (Except.ok.inj represented).symm
  · obtain ⟨entries, ok⟩ := built.runtimeTable_ok
    exact ⟨entries, ok, built.listsCallable ok⟩

/-- `Left` is not defined, and `Tip` stands for it. -/
theorem diamond_callable : ∃ l entries, Layouts.build Diamond.hierarchy ⟨.interleaved, 8⟩ = .ok l ∧
    Diamond.hierarchy.isDefined 1 = false ∧ Diamond.hierarchy.key 1 = .primary "Left" ∧
    l.translate (.primary "Left") 0 true = .ok 0 ∧
    (∃ set, l.rangeFor (.primary "Left") .precise = .ok (some set)) ∧
    l.runtimeTable = .ok entries ∧ "Left" ∈ entries.map (·.className) := by
  obtain ⟨l, laid⟩ : ∃ l, Layouts.build Diamond.hierarchy ⟨.interleaved, 8⟩ = .ok l := ⟨_, rfl⟩
  obtain ⟨agree, entries, table, lists⟩ := callable_agrees Diamond.ofRecords_records laid
  have hierarchy : l.hierarchy = Diamond.hierarchy := by
    obtain rfl := Except.ok.inj laid
    rfl
  have found : Diamond.hierarchy.find? (.primary "Left") = some 1 := by decide +kernel
  have counted : 0 < Diamond.hierarchy.cloudSize 1 := by decide +kernel
  have same := (agree (.primary "Left") 1 found).1
  have listed := (lists.listed "Left").mpr ⟨1, by rw [hierarchy]; exact found, by
    rw [hierarchy]; exact counted⟩
  exact ⟨l, entries, laid, by decide +kernel, by decide +kernel, (same.out 1 3).mp counted,
    (same.out 1 5).mp counted, table, listed⟩

end VtableCloud
