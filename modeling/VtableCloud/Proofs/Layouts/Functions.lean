import VtableCloud.Proofs.Hierarchy.FunctionSlot
import VtableCloud.Proofs.Layouts.Contents
import VtableCloud.Proofs.Layouts.Undefined

/-!
# Virtual functions in the new tables

A function is looked up by name in the old vtable of a class, and its slot is translated.

* `Layouts.Keeps`: a slot of a sub-vtable has its old element at its new place;
* `Built.translateFunction_defined`: the functions of a defined class are kept;
* `Built.translateFunction_below`: those of an undefined class are translated if they lie at or
  behind the address point and a defined class descends from their sub-vtable;
* `functions_translated`: both hold of every lookup, the second unless the function lies further
  in front of the address point than a signed word can say.
-/

namespace VtableCloud

namespace Layouts

/-- A new table holds, at a distance from the new address point of a sub-vtable, what the old
vtable held at another distance from the old one. -/
def Keeps (l : Layouts) (id : NodeId) (old new : Int) : Prop :=
  ∃ (c : CloudLayout) (t : Table) (ap p : Nat) (e e' : Element), l.cloudOf id = .ok c ∧
    materialize l.hierarchy c = .ok t ∧
    c.addressPointPosition? l.hierarchy (l.hierarchy.key id) = some ap ∧ (p : Int) = ap + new ∧
    l.hierarchy.element? (l.hierarchy.key id).className
      ((l.hierarchy.node id).addressPoint + old) = some e ∧
    t.elements[p]? = some e' ∧ e.WrittenAs c.root e'

variable {l : Layouts} {id : NodeId} {className name : String} {offset : Int}

namespace Built

/-- What is translated is kept. -/
theorem keeps_of_translate (built : l.Built) (inMemory : l.hierarchy.InMemory)
    (defined : l.hierarchy.isDefined id = true) {t : Int}
    (translated : l.translate (l.hierarchy.key id) offset true = .ok t) :
    l.Keeps id offset t := by
  have lt := Hierarchy.lt_size_of_isDefined defined
  have hosted := built.cloudOf id lt
  obtain ⟨table, filled, holds⟩ := built.materialize_holds inMemory lt
  obtain ⟨ap, p, e, e', point, position, original, element, written⟩ :=
    holds.carried id offset t defined hosted translated
  exact ⟨_, table, ap, p, e, e', hosted, filled, point, position, original, element, written⟩

/-- A function of a defined class that has a slot is kept. -/
theorem translateFunction_defined (built : l.Built) (inMemory : l.hierarchy.InMemory)
    (defined : l.hierarchy.isDefined id = true)
    (found : l.hierarchy.functionSlot? className name = some (l.hierarchy.key id, offset))
    (lo : (l.hierarchy.node id).start ≤ (l.hierarchy.node id).addressPoint + offset)
    (hi : (l.hierarchy.node id).addressPoint + offset ≤ (l.hierarchy.node id).last) :
    ∃ t, l.translateFunction className name = .ok t ∧ l.Keeps id offset t := by
  have pointed := built.wf.pointed (Hierarchy.lt_size_of_isDefined defined)
  have known := built.wf.find?_key (Hierarchy.lt_size_of_isDefined defined)
  have itself := Hierarchy.representative_self defined
  obtain ⟨k, m, hm, rfl, node, -⟩ := built.member_of_isDefined defined
  rw [← node] at lo hi pointed
  have front : -(m.node.addressOffset : Int) ≤ offset := by
    rw [Node.addressOffset]
    omega
  have back : offset ≤ m.after := by
    rw [Member.after]
    omega
  have translated := built.translate_of_place known itself hm front back
  refine ⟨_, ?_, built.keeps_of_translate inMemory defined translated⟩
  rw [translateFunction, found]
  exact translated

/-- A function at or behind the address point of a sub-vtable, from which a defined class
descends, is translated. -/
theorem translateFunction_below (built : l.Built) (mono : l.hierarchy.Monotone)
    (lt : id < l.hierarchy.size)
    (below : ∃ d, l.hierarchy.Descends id d ∧ l.hierarchy.isDefined d = true)
    (found : l.hierarchy.functionSlot? className name = some (l.hierarchy.key id, offset))
    (lo : 0 ≤ offset)
    (hi : (l.hierarchy.node id).addressPoint + offset ≤ (l.hierarchy.node id).last) :
    ∃ t, l.translateFunction className name = .ok t := by
  obtain ⟨d, path, defined⟩ := below
  obtain ⟨s, represented, down, -⟩ := Hierarchy.representative_of_descends path defined
  obtain ⟨r, rfl⟩ := Int.eq_ofNat_of_zero_le lo
  have enough : r ≤ l.hierarchy.after s := by
    have longer := mono.of_descends down
    rw [Hierarchy.after]
    omega
  obtain ⟨t, translated, -⟩ :=
    built.translate_of_represented (built.wf.find?_key lt) represented enough
  refine ⟨t, ?_⟩
  rw [translateFunction, found]
  exact translated

end Built

end Layouts

/-- In a monotone hierarchy, a function that a class lists is looked up in the first sub-vtable
that lists it, at the slot of its first listing there. If the class is defined, the function is
translated, and the new table holds its old element there. If the class is not defined but a defined
class descends from the sub-vtable, a function at or behind the address point is translated.
Distances that are no signed words come back wrapped, which happens to undefined classes only. -/
theorem functions_translated {records : List ClassRecord} {h : Hierarchy}
    {options : LayoutOptions} {l : Layouts} {r : ClassRecord} {name : String}
    (ingested : Hierarchy.ofRecords records = .ok h) (mono : h.Monotone) (inMemory : h.InMemory)
    (laid : Layouts.build h options = .ok l) (hr : r ∈ h.records)
    (listed : ∃ s ∈ r.subVtables, s.Lists name) :
    ∃ s f id offset, r.FirstListing name s f ∧ h.find? (r.key s.order) = some id ∧
      h.functionSlot? r.name name = some (r.key s.order, offset) ∧
      (s.addressPoint + offset = (s.start + f.offset : Nat) ↔ fitsSigned (s.distance f) = true) ∧
      (r.isDefined = true → fitsSigned (s.distance f) = true ∧
        ∃ t, l.translateFunction r.name name = .ok t ∧ l.Keeps id offset t) ∧
      (fitsSigned (s.distance f) = true → 0 ≤ offset →
        (∃ d, h.Descends id d ∧ h.isDefined d = true) →
        ∃ t, l.translateFunction r.name name = .ok t) := by
  have wf := Hierarchy.wellFormed_of_ofRecords ingested
  obtain ⟨built, rfl, rfl⟩ := Layouts.built_of_build wf laid
  obtain ⟨s, f, listing, found⟩ := wf.exists_functionSlot hr listed
  have own := wf.collected.wellFormed r hr
  have inside := own.slot_le_last listing
  have pointed := own.pointed s listing.member
  obtain ⟨id, lt, key, start, last, point, isDefined⟩ :=
    Hierarchy.exists_node_of_subVtable ingested hr listing.member
  have known := wf.find?_key lt
  rw [key] at known
  rw [← key] at found
  have exact_iff : s.addressPoint + signedWord (s.distance f) = (s.start + f.offset : Nat) ↔
      fitsSigned (s.distance f) = true := by
    rw [← signedWord_eq_iff, SubVtable.distance]
    omega
  have offset_of_fits (fits : fitsSigned (s.distance f) = true) :
      signedWord (s.distance f) = (s.start + f.offset : Nat) - s.addressPoint :=
    signedWord_eq_iff.mpr fits
  refine ⟨s, f, id, _, listing, known, key ▸ found, exact_iff, fun defined => ?_,
    fun fits lo below => ?_⟩
  · have few := inMemory r hr
    have elements := own.elements defined s listing.member
    have fits : fitsSigned (s.distance f) = true := by
      rw [fitsSigned, decide_eq_true_eq, SubVtable.distance]
      omega
    have offset := offset_of_fits fits
    refine ⟨fits, built.translateFunction_defined inMemory (isDefined.trans defined) found ?_ ?_⟩
    · rw [start, point, offset]
      omega
    · rw [last, point, offset]
      omega
  · have offset := offset_of_fits fits
    apply built.translateFunction_below mono lt below found lo
    rw [last, point, offset]
    omega

namespace Shapes

def shape : ClassRecord :=
  ⟨"Shape", [⟨0, .empty, 0, 2, 2, [⟨"_ZN5Shape4drawEv", 2⟩]⟩],
    [.offset 0, .rtti "_ZTI5Shape", .function "_ZN5Shape4drawEv"], true⟩

/-- A subclass that is emitted elsewhere. -/
def round : ClassRecord :=
  ⟨"Round", [⟨0, .ofList [.primary "Shape"], 0, 3, 2, [⟨"_ZN5Round4rollEv", 3⟩]⟩], [], false⟩

/-- The two classes and one below them. -/
def records : List ClassRecord := [shape, round,
  ⟨"Disc", [⟨0, .ofList [.primary "Round"], 0, 3, 2, []⟩],
    [.offset 0, .rtti "_ZTI4Disc", .function "_ZN5Shape4drawEv", .function "_ZN5Round4rollEv"],
    true⟩]

def hierarchy : Hierarchy := (Hierarchy.ofRecords records).toOption.getD .empty

def layouts : Layouts := (Layouts.build hierarchy ⟨.interleaved, 8⟩).toOption.getD default

theorem ofRecords_records : Hierarchy.ofRecords records = .ok hierarchy := by rfl

theorem build_hierarchy : Layouts.build hierarchy ⟨.interleaved, 8⟩ = .ok layouts := by rfl

end Shapes

/-- A function of the defined class is kept, and one of the other class is translated. -/
theorem shapes_functions : (∃ id offset t,
      Shapes.layouts.translateFunction "Shape" "_ZN5Shape4drawEv" = .ok t ∧
      Shapes.layouts.Keeps id offset t) ∧
    ∃ t, Shapes.layouts.translateFunction "Round" "_ZN5Round4rollEv" = .ok t := by
  have mono : Shapes.hierarchy.Monotone := by decide +kernel
  have inMemory : Shapes.hierarchy.InMemory := by decide +kernel
  constructor
  · have hr : Shapes.shape ∈ Shapes.hierarchy.records := by decide +kernel
    obtain ⟨s, f, id, offset, -, -, -, -, kept, -⟩ := functions_translated
      Shapes.ofRecords_records mono inMemory Shapes.build_hierarchy hr
      ⟨_, List.mem_singleton_self _, _, List.mem_singleton_self _, rfl⟩
    obtain ⟨-, t, translated, keeps⟩ := kept rfl
    exact ⟨id, offset, t, translated, keeps⟩
  · have hr : Shapes.round ∈ Shapes.hierarchy.records := by decide +kernel
    obtain ⟨s, f, id, offset, listing, known, found, -, -, translated⟩ := functions_translated
      Shapes.ofRecords_records mono inMemory Shapes.build_hierarchy hr
      ⟨_, List.mem_singleton_self _, _, List.mem_singleton_self _, rfl⟩
    obtain rfl := List.mem_singleton.mp listing.member
    obtain rfl := List.mem_singleton.mp listing.first.mem
    have looked : Shapes.hierarchy.functionSlot? "Round" "_ZN5Round4rollEv" =
        some (.primary "Round", 1) := by decide +kernel
    obtain rfl : offset = 1 := by
      have same := found.symm.trans looked
      exact (Prod.mk.inj (Option.some.inj same)).2
    have node : Shapes.hierarchy.find? (.primary "Round") = some 1 := by decide +kernel
    obtain rfl : id = 1 := Option.some.inj (known.symm.trans node)
    have path : Shapes.hierarchy.Descends 1 0 := Hierarchy.mem_preorder.mp (by decide +kernel)
    exact translated (by decide +kernel) (by decide) ⟨0, path, by decide +kernel⟩

namespace Remote

/-- Two classes below a common one, the second of which is emitted elsewhere and has its address
point more than half of all words behind its start, and a class below both. -/
def records : List ClassRecord := [
  ⟨"Base", [⟨0, .empty, 0, 0, 0, []⟩], [.null], true⟩,
  ⟨"Left", [⟨0, .ofList [.primary "Base"], 0, 0, 0, []⟩], [.null], true⟩,
  ⟨"Right", [⟨0, .ofList [.primary "Base"], 0, 9223372036854775809, 9223372036854775809,
    [⟨"f", 0⟩]⟩], [], false⟩,
  ⟨"Join", [⟨0, .ofList [.primary "Left", .primary "Right"], 0, 0, 0, []⟩], [.null], true⟩]

def hierarchy : Hierarchy := (Hierarchy.ofRecords records).toOption.getD .empty

def layouts : Layouts := (Layouts.build hierarchy ⟨.interleaved, 8⟩).toOption.getD default

theorem ofRecords_records : Hierarchy.ofRecords records = .ok hierarchy := by rfl

theorem build_hierarchy : Layouts.build hierarchy ⟨.interleaved, 8⟩ = .ok layouts := by
  decide +kernel

end Remote

/-- The function lies in front of the address point, and is looked up behind it, where no class has
a slot. -/
theorem remote_wrapped :
    Hierarchy.ofRecords Remote.records = .ok Remote.hierarchy ∧ Remote.hierarchy.Monotone ∧
    Remote.hierarchy.InMemory ∧
    Layouts.build Remote.hierarchy ⟨.interleaved, 8⟩ = .ok Remote.layouts ∧
    (Remote.hierarchy.node 3).addressPoint = 9223372036854775809 ∧
    Remote.hierarchy.functionSlot? "Right" "f" = some (.primary "Right", 9223372036854775807) ∧
    Remote.hierarchy.Descends 3 1 ∧ Remote.hierarchy.isDefined 1 = true ∧
    Remote.layouts.translateFunction "Right" "f" =
      .error (.indexOutOfRange (.primary "Right") 9223372036854775807 1) := by
  have path : Remote.hierarchy.Descends 3 1 := Hierarchy.mem_preorder.mp (by decide +kernel)
  exact ⟨Remote.ofRecords_records, by decide +kernel, by decide +kernel, Remote.build_hierarchy,
    by decide +kernel, by decide +kernel, path, by decide +kernel, by decide +kernel⟩

end VtableCloud
