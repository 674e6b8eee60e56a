import VtableCloud.Proofs.Layouts.Clones

/-!
# When two clones have one name

A clone is named by a class and a thunk with nothing between them, so that a name may be read in
two ways: the name of one class ends where that of another goes on, and what follows is in turn
part of the thunk of the first.

* `append_eq_append_iff`: the ways in which two texts are cut from one;
* `isVirtualThunkSymbol_front`: what stands in front of a virtual thunk in another is one itself;
* `ThunkClone.Named.same_name_iff`: clones of one name are of the same thunk for the same class, or
  one of them runs into the other;
* `clone_eq_iff`: of the clones that are listed for a hierarchy, only those have one name that are
  alike or run into each other.
-/

namespace VtableCloud

/-- Two texts that are cut in two are the same if one cut comes at or after the other, with
one text between the cuts. -/
theorem append_eq_append_iff {a b c d : String} :
    a ++ b = c ++ d ↔ (∃ t, c = a ++ t ∧ b = t ++ d) ∨ ∃ t, a = c ++ t ∧ d = t ++ b := by
  have between {p q r s : String} :
      (∃ t, p = q ++ t ∧ r = t ++ s) ↔
        ∃ t, p.toList = q.toList ++ t ∧ r.toList = t ++ s.toList := by
    constructor
    · rintro ⟨t, rfl, rfl⟩
      exact ⟨t.toList, String.toList_append, String.toList_append⟩
    · rintro ⟨t, hp, hr⟩
      refine ⟨String.ofList t, ?_, ?_⟩
      · rw [← String.toList_inj, String.toList_append, String.toList_ofList, hp]
      · rw [← String.toList_inj, String.toList_append, String.toList_ofList, hr]
  rw [between, between, ← String.toList_inj, String.toList_append, String.toList_append,
    List.append_eq_append_iff]

/-- A word that has its first letter nowhere else does not begin again inside itself. -/
theorem prefix_front {letter : Char} {word front rest : List Char} (whole : word <+: front ++ rest)
    (begins : [letter] <+: rest) (once : letter ∉ word.tail) : front = [] ∨ word <+: front := by
  cases List.prefix_or_prefix_of_prefix whole (List.prefix_append front rest) with
  | inl inside => exact .inr inside
  | inr around =>
    obtain ⟨back, rfl⟩ := around
    rw [List.prefix_append_right_inj] at whole
    cases front with
    | nil => exact .inl rfl
    | cons c front =>
      cases back with
      | nil => simp
      | cons b back =>
        obtain ⟨more, rfl⟩ := begins
        obtain ⟨rfl, -⟩ := List.cons_prefix_cons.mp whole
        simp at once

/-- A text in front of a virtual thunk, with which it is one too, is a virtual thunk itself. -/
theorem isVirtualThunkSymbol_front {front symbol : String}
    (whole : isVirtualThunkSymbol (front ++ symbol) = true)
    (rest : isVirtualThunkSymbol symbol = true) :
    front = "" ∨ isVirtualThunkSymbol front = true := by
  have begins : ['_'] <+: symbol.toList := by
    cases isVirtualThunkSymbol_iff.mp rest with
    | inl plain => exact .trans (by decide) plain
    | inr covariant => exact .trans (by decide) covariant
  rw [isVirtualThunkSymbol_iff, String.toList_append] at whole
  rw [isVirtualThunkSymbol_iff, ← String.toList_eq_nil_iff]
  cases whole with
  | inl plain => exact (prefix_front plain begins (by decide)).imp_right .inl
  | inr covariant => exact (prefix_front covariant begins (by decide)).imp_right .inr

namespace ThunkClone

variable {x y : ThunkClone}

/-- A clone of a virtual thunk, named for its layout class. -/
structure Named (x : ThunkClone) : Prop where
  virtual : isVirtualThunkSymbol x.thunk = true
  clone : x.clone = cloneSymbol x.layoutClass x.thunk

/-- The layout class of the second clone continues that of the first like a virtual thunk, and
the thunk of the first clone is what it continues with and the thunk of the second behind. -/
def RunsInto (x y : ThunkClone) : Prop :=
  ∃ front, isVirtualThunkSymbol front = true ∧ y.layoutClass = x.layoutClass ++ front ∧
    x.thunk = front ++ y.thunk

theorem RunsInto.clone_eq (runs : x.RunsInto y) (hx : x.Named) (hy : y.Named) :
    x.clone = y.clone := by
  obtain ⟨front, -, layoutClass, thunk⟩ := runs
  rw [hx.clone, hy.clone, cloneSymbol, cloneSymbol, thunk, layoutClass]
  simp only [String.append_assoc]

/-- If the layout class of the second clone goes on where that of the first ends, with a text that
the thunk of the first begins with, then this text is empty or a virtual thunk. -/
theorem Named.alike_or_runsInto (hx : x.Named) (hy : y.Named)
    (cut : ∃ front, y.layoutClass = x.layoutClass ++ front ∧ x.thunk = front ++ y.thunk) :
    (x.thunk = y.thunk ∧ x.layoutClass = y.layoutClass) ∨ x.RunsInto y := by
  obtain ⟨front, layoutClass, thunk⟩ := cut
  cases isVirtualThunkSymbol_front (thunk ▸ hx.virtual) hy.virtual with
  | inl none =>
    subst none
    apply Or.inl
    simp [thunk, layoutClass]
  | inr virtual => exact .inr ⟨front, virtual, layoutClass, thunk⟩

/-- Clones of one name are alike or run into each other. -/
theorem Named.same_name_iff (hx : x.Named) (hy : y.Named) :
    x.clone = y.clone ↔
      (x.thunk = y.thunk ∧ x.layoutClass = y.layoutClass) ∨ x.RunsInto y ∨ y.RunsInto x := by
  constructor
  · intro same
    rw [hx.clone, hy.clone, cloneSymbol, cloneSymbol, String.append_assoc, String.append_assoc,
      String.append_right_inj] at same
    cases append_eq_append_iff.mp same with
    | inl later =>
      cases hx.alike_or_runsInto hy later with
      | inl alike => exact .inl alike
      | inr runs => exact .inr (.inl runs)
    | inr earlier =>
      cases hy.alike_or_runsInto hx earlier with
      | inl alike => exact .inl ⟨alike.1.symm, alike.2.symm⟩
      | inr runs => exact .inr (.inr runs)
  · rintro (⟨thunk, layoutClass⟩ | runs | runs)
    · rw [hx.clone, hy.clone, thunk, layoutClass]
    · exact runs.clone_eq hx hy
    · exact (runs.clone_eq hy hx).symm

end ThunkClone

/-- A filled table lists clones of virtual thunks, named for its root class. -/
theorem named_of_mem_thunks {h : Hierarchy} {c : CloudLayout} {t : Table}
    (filled : materialize h c = .ok t) {x : ThunkClone} (hx : x ∈ t.thunks) :
    x.Named ∧ x.layoutClass = c.root := by
  obtain ⟨old, -, eq⟩ := bind_ok.mp filled
  obtain rfl := Except.ok.inj eq
  obtain ⟨before, after, found, -⟩ := mem_foldl_addClone.mp hx
  have member : x ∈ (c.slots.zip old).filterMap (thunkClone? c.root) := by simp [found]
  obtain ⟨⟨slot, e⟩, -, called⟩ := List.mem_filterMap.mp member
  obtain ⟨-, -, virtual, clone, layoutClass⟩ := thunkClone?_eq_some.mp called
  exact ⟨⟨virtual, layoutClass ▸ clone⟩, layoutClass⟩

/-- All clones listed for a hierarchy are named for its root classes. -/
theorem named_of_materializeAll {h : Hierarchy} {options : LayoutOptions} {l : Layouts}
    {tables : List Table} (wf : h.WellFormed) (laid : Layouts.build h options = .ok l)
    (filled : l.materializeAll = .ok tables) {t : Table} (ht : t ∈ tables) {x : ThunkClone}
    (hx : x ∈ t.thunks) : x.Named ∧ x.layoutClass ∈ h.roots := by
  obtain ⟨-, -, -, mapped⟩ := Layouts.build_ok.mp laid
  obtain ⟨c, hc, ok⟩ := mapM_ok_mem filled ht
  obtain ⟨named, layoutClass⟩ := named_of_mem_thunks ok hx
  refine ⟨named, ?_⟩
  rw [layoutClass, ← Layouts.map_root_clouds wf mapped]
  exact List.mem_map_of_mem hc

section Listed

variable {records : List ClassRecord} {h : Hierarchy} {options : LayoutOptions} {l : Layouts}
  {tables : List Table} {t t' : Table} {x x' : ThunkClone}

/-- Two clones that are listed for a hierarchy have one name just if they are of the same thunk
for the same layout class, or one of them runs into the other. -/
theorem clone_eq_iff (ingested : Hierarchy.ofRecords records = .ok h)
    (laid : Layouts.build h options = .ok l) (filled : l.materializeAll = .ok tables)
    (ht : t ∈ tables) (ht' : t' ∈ tables) (hx : x ∈ t.thunks) (hx' : x' ∈ t'.thunks) :
    x.layoutClass ∈ h.roots ∧ x'.layoutClass ∈ h.roots ∧ (x.clone = x'.clone ↔
      (x.thunk = x'.thunk ∧ x.layoutClass = x'.layoutClass) ∨ x.RunsInto x' ∨ x'.RunsInto x) := by
  have wf := Hierarchy.wellFormed_of_ofRecords ingested
  obtain ⟨named, root⟩ := named_of_materializeAll wf laid filled ht hx
  obtain ⟨named', root'⟩ := named_of_materializeAll wf laid filled ht' hx'
  exact ⟨root, root', named.same_name_iff named'⟩

end Listed

namespace Continued

/-- Two root classes, one of which continues the name of the other like a virtual thunk. -/
def records : List ClassRecord := [
  ⟨"A", [⟨0, .empty, 0, 0, 0, []⟩], [.function "_ZTv_ZTvX"], true⟩,
  ⟨"A_ZTv", [⟨0, .empty, 0, 0, 0, []⟩], [.function "_ZTvX"], true⟩]

def hierarchy : Hierarchy := (Hierarchy.ofRecords records).toOption.getD .empty

def layouts : Layouts := (Layouts.build hierarchy ⟨.interleaved, 8⟩).toOption.getD default

/-- The clone of the first class. -/
def first : ThunkClone := ⟨"_ZTv_ZTvX", "_SVTA_ZTv_ZTvX", "A", .primary "A"⟩

/-- The clone of the second class. -/
def second : ThunkClone := ⟨"_ZTvX", "_SVTA_ZTv_ZTvX", "A_ZTv", .primary "A_ZTv"⟩

def tables : List Table := [
  ⟨"_SDA", 8, [.function "_SVTA_ZTv_ZTvX"], [first]⟩,
  ⟨"_SDA_ZTv", 8, [.function "_SVTA_ZTv_ZTvX"], [second]⟩]

theorem ofRecords_records : Hierarchy.ofRecords records = .ok hierarchy := by rfl

theorem build_hierarchy : Layouts.build hierarchy ⟨.interleaved, 8⟩ = .ok layouts := by rfl

theorem materializeAll_layouts : layouts.materializeAll = .ok tables := by decide +kernel

end Continued

/-- The first clone runs into the second, and so they have one name. -/
theorem continued_runs_into : ∃ t ∈ Continued.tables, ∃ t' ∈ Continued.tables,
    Continued.first ∈ t.thunks ∧ Continued.second ∈ t'.thunks ∧
    Continued.first.RunsInto Continued.second ∧
    Continued.first.clone = Continued.second.clone := by
  have runs : Continued.first.RunsInto Continued.second :=
    ⟨"_ZTv", by decide +kernel, by decide +kernel, by decide +kernel⟩
  have listed : Continued.tables[0] ∈ Continued.tables ∧ Continued.tables[1] ∈ Continued.tables ∧
      Continued.first ∈ Continued.tables[0].thunks ∧
      Continued.second ∈ Continued.tables[1].thunks := by
    decide +kernel
  obtain ⟨ht, ht', hx, hx'⟩ := listed
  obtain ⟨-, -, same⟩ := clone_eq_iff Continued.ofRecords_records Continued.build_hierarchy
    Continued.materializeAll_layouts ht ht' hx hx'
  exact ⟨_, ht, _, ht', hx, hx', runs, same.mpr (.inr (.inl runs))⟩

/-- These are clones of two thunks for two layout classes. -/
theorem continued_ambiguous :
    Hierarchy.ofRecords Continued.records = .ok Continued.hierarchy ∧
    Layouts.build Continued.hierarchy ⟨.interleaved, 8⟩ = .ok Continued.layouts ∧
    Continued.layouts.materializeAll = .ok Continued.tables ∧
    ∃ t ∈ Continued.tables, ∃ t' ∈ Continued.tables, ∃ x ∈ t.thunks, ∃ x' ∈ t'.thunks,
      x.clone = x'.clone ∧ x.thunk ≠ x'.thunk ∧ x.layoutClass ≠ x'.layoutClass :=
  ⟨Continued.ofRecords_records, Continued.build_hierarchy, Continued.materializeAll_layouts,
    by decide +kernel⟩

end VtableCloud
