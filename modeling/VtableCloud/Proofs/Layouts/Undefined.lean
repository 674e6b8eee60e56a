import VtableCloud.Proofs.Layouts.Descendants

/-!
# Classes that are emitted elsewhere

Nothing of an undefined class is in the new tables. A call through it is translated like one
through its first defined descendant, and reaches objects of all the others.

* `Built.translate_of_represented`: keys that one node stands for are translated like this node;
* `Built.after_le_of_between`: what stands between later descendants has the slots of the class;
* `undefined_translated`: when a descendant of an undefined class translates the offsets of the
  class as the class does.
-/

namespace VtableCloud

namespace Layouts.Built

variable {l : Layouts} {id s : NodeId}

/-- A key is translated like the node that stands for it, and so is each slot that this node has
from its address point on. -/
theorem translate_of_represented (built : l.Built) {key : SubVtableKey}
    (found : l.hierarchy.find? key = some id)
    (represented : l.hierarchy.representative id = .ok s) {r : Nat}
    (enough : r ≤ l.hierarchy.after s) :
    ∃ t, l.translate key r true = .ok t ∧ l.translate (l.hierarchy.key s) r true = .ok t := by
  have here := (Hierarchy.representative_ok represented).2
  have own := built.wf.find?_key (Hierarchy.lt_size_of_isDefined here)
  obtain ⟨k, m, hm, rfl, -, -⟩ := built.member_of_isDefined here
  rw [← Hierarchy.after_of_getElem? hm] at enough
  exact ⟨_, built.translate_of_place found represented hm (by omega) (by omega),
    built.translate_of_place own (Hierarchy.representative_self here) hm (by omega) (by omega)⟩

/-- All that stands between two descendants that come after a class comes after the class as well,
and before the last of them. It has the slots of the class if the hierarchy is monotone. -/
theorem after_le_of_between (built : l.Built) (mono : l.hierarchy.Monotone) {u d x : NodeId}
    (down : l.hierarchy.Descends u s) (path : l.hierarchy.Descends u d)
    (first : (l.arrangedCloud u).preorder.idxOf u < (l.arrangedCloud u).preorder.idxOf s)
    (second : (l.arrangedCloud u).preorder.idxOf u < (l.arrangedCloud u).preorder.idxOf d)
    (between : (l.arrangedCloud u).Between s x d) :
    l.hierarchy.after u ≤ l.hierarchy.after x := by
  obtain ⟨i, m, hm, rfl⟩ := built.exists_member (.refl u)
  obtain ⟨j, ms, hs, rfl⟩ := built.exists_member down
  obtain ⟨k, md, hd, rfl⟩ := built.exists_member path
  obtain ⟨n, mx, hx, rfl⟩ := mem_preorder_iff.mp between.1
  have order := (between_iff hs hx hd).mp between
  rw [idxOf_preorder hm] at first second
  rw [idxOf_preorder hs] at first
  rw [idxOf_preorder hd] at second
  have fits : m.FitsIn mx := by
    rcases Nat.lt_or_ge n k with before | behind
    · exact Hierarchy.fitsIn_of_descends built.wf mono hm hd second path hx (by omega) (by omega)
    · exact Hierarchy.fitsIn_of_descends built.wf mono hm hs first down hx (by omega) (by omega)
  have longer := fits.2
  rw [Hierarchy.after_of_getElem? hm, Hierarchy.after_of_getElem? hx] at longer
  exact longer

end Layouts.Built

/-- In a monotone hierarchy all offsets of an undefined class are translated, for the class like
for its first defined descendant, and for every defined descendant. A descendant agrees with the
class if the table is ordered. In an interleaved table it agrees just if all defined classes that
stand between it and the first defined descendant have a slot there. They do if both come after
the class; one that is first reached on another way may come long before it. -/
theorem undefined_translated {records : List ClassRecord} {h : Hierarchy}
    {options : LayoutOptions} {l : Layouts} {u d : NodeId} {r : Nat}
    (ingested : Hierarchy.ofRecords records = .ok h) (mono : h.Monotone)
    (laid : Layouts.build h options = .ok l) (missing : h.isDefined u = false)
    (there : h.isDefined d = true) (path : h.Descends u d)
    (within : r ≤ (h.node u).last - (h.node u).addressPoint) :
    ∃ s c t t', h.representative u = .ok s ∧ l.cloudOf u = .ok c ∧
      l.translate (h.key u) r true = .ok t ∧ l.translate (h.key s) r true = .ok t ∧
      l.translate (h.key d) r true = .ok t' ∧
      (t = t' ↔ (options.strategy = .interleaved →
        ∀ x, c.Between s x d → h.isDefined x = true → r ≤ h.after x)) ∧
      (c.preorder.idxOf u < c.preorder.idxOf s → c.preorder.idxOf u < c.preorder.idxOf d →
        t = t') := by
  obtain ⟨built, rfl, rfl⟩ := Layouts.built_of_build (Hierarchy.wellFormed_of_ofRecords ingested)
    laid
  obtain ⟨s, represented, down, here⟩ := Hierarchy.representative_of_descends path there
  have lt : u < l.hierarchy.size := by
    cases path with
    | refl =>
      rw [missing] at there
      cases there
    | step edge _ =>
      exact Hierarchy.lt_size_of_mem_children (Hierarchy.succ_childGraph _ u ▸ edge)
  have kept {x : NodeId} (path : l.hierarchy.Descends u x) : r ≤ l.hierarchy.after x :=
    Nat.le_trans within (mono.of_descends path)
  have found := built.wf.find?_key lt
  have found' := built.wf.find?_key (Hierarchy.lt_size_of_isDefined there)
  have represented' := Hierarchy.representative_self there
  obtain ⟨t, translated, own⟩ := built.translate_of_represented found represented (kept down)
  obtain ⟨t', translated', -⟩ := built.translate_of_represented found' represented' (kept path)
  have up := built.wf.cloudRoot_of_descends down
  have same := (built.wf.cloudRoot_of_descends path).trans up.symm
  have cloud : l.arrangedCloud s = l.arrangedCloud u := by
    rw [Layouts.arrangedCloud, up, Layouts.arrangedCloud]
  have equal := built.translate_eq_iff found represented found' represented' same translated
    translated' fun _ x _ _ => by omega
  simp only [cloud, Int.ofNat_le] at equal
  refine ⟨s, l.arrangedCloud u, t, t', represented, built.cloudOf u lt, translated, own,
    translated', equal, fun first second => equal.mpr fun _ x between defined => ?_⟩
  exact Nat.le_trans within (built.after_le_of_between mono down path first second between)

namespace Rejoined

/-- A class whose second child is emitted elsewhere and has one slot more. A class below both
children is first reached from the other child, and so is a shorter one. -/
def records : List ClassRecord := [
  ⟨"Base", [⟨0, .empty, 0, 0, 0, []⟩], [.null], true⟩,
  ⟨"Left", [⟨0, .ofList [.primary "Base"], 0, 0, 0, []⟩], [.null], true⟩,
  ⟨"Right", [⟨0, .ofList [.primary "Base"], 0, 1, 0, []⟩], [], false⟩,
  ⟨"Join", [⟨0, .ofList [.primary "Left", .primary "Right"], 0, 1, 0, []⟩], [.null, .null], true⟩,
  ⟨"Leaf", [⟨0, .ofList [.primary "Left"], 0, 0, 0, []⟩], [.null], true⟩,
  ⟨"Early", [⟨0, .ofList [.primary "Right"], 0, 1, 0, []⟩], [.null, .null], true⟩,
  ⟨"Tail", [⟨0, .ofList [.primary "Right"], 0, 1, 0, []⟩], [.null, .null], true⟩]

def hierarchy : Hierarchy := (Hierarchy.ofRecords records).toOption.getD .empty

def layouts : Layouts := (Layouts.build hierarchy ⟨.interleaved, 8⟩).toOption.getD default

theorem ofRecords_records : Hierarchy.ofRecords records = .ok hierarchy := by rfl

theorem monotone : hierarchy.Monotone := by decide +kernel

theorem build_hierarchy : Layouts.build hierarchy ⟨.interleaved, 8⟩ = .ok layouts := by rfl

end Rejoined

/-- `Early` stands for the class, and `Tail` comes after it. -/
theorem rejoined_translated : ∃ t t', Rejoined.hierarchy.key 5 = .primary "Right" ∧
    Rejoined.hierarchy.representative 5 = .ok 1 ∧ Rejoined.hierarchy.key 6 = .primary "Tail" ∧
    Rejoined.layouts.translate (Rejoined.hierarchy.key 5) 1 true = .ok t ∧
    Rejoined.layouts.translate (Rejoined.hierarchy.key 6) 1 true = .ok t' ∧ t = t' := by
  have path : Rejoined.hierarchy.Descends 5 6 := Hierarchy.mem_preorder.mp (by decide +kernel)
  obtain ⟨s, c, t, t', represented, hosted, translated, -, translated', -, equal⟩ :=
    @undefined_translated Rejoined.records Rejoined.hierarchy ⟨.interleaved, 8⟩ Rejoined.layouts
      5 6 1 Rejoined.ofRecords_records Rejoined.monotone Rejoined.build_hierarchy
      (by decide +kernel) (by decide +kernel) path (by decide +kernel)
  obtain rfl : 1 = s := Except.ok.inj represented
  obtain rfl := Except.ok.inj hosted
  exact ⟨t, t', rfl, represented, rfl, translated, translated',
    equal (by decide +kernel) (by decide +kernel)⟩

/-- `Join` comes before the class, and `Leaf` stands between the two. -/
theorem rejoined_differs : Hierarchy.ofRecords Rejoined.records = .ok Rejoined.hierarchy ∧
    Rejoined.hierarchy.Monotone ∧
    Layouts.build Rejoined.hierarchy ⟨.interleaved, 8⟩ = .ok Rejoined.layouts ∧
    Rejoined.hierarchy.isDefined 5 = false ∧ Rejoined.hierarchy.isDefined 2 = true ∧
    Rejoined.hierarchy.Descends 5 2 ∧
    1 ≤ (Rejoined.hierarchy.node 5).last - (Rejoined.hierarchy.node 5).addressPoint ∧
    Rejoined.layouts.translate (Rejoined.hierarchy.key 5) 1 true = .ok 3 ∧
    Rejoined.layouts.translate (Rejoined.hierarchy.key 2) 1 true = .ok 4 := by
  have path : Rejoined.hierarchy.Descends 5 2 := Hierarchy.mem_preorder.mp (by decide +kernel)
  exact ⟨Rejoined.ofRecords_records, Rejoined.monotone, Rejoined.build_hierarchy,
    by decide +kernel, by decide +kernel, path, by decide +kernel, rfl, rfl⟩

end VtableCloud
