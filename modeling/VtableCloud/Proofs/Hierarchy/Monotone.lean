import VtableCloud.Proofs.Hierarchy.WellFormed

/-!
# Hierarchies in which children keep the slots of their parents

* `Monotone.of_descends`: a descendant has at least as many slots from its address point on;
* `Diamond.hierarchy`: two classes with a common parent and a common child, one of them
  emitted elsewhere;
* `Deep.hierarchy`: a class far below the first slot of its parent;
* `Wide.hierarchy`: a class with a child of any width.
-/

namespace VtableCloud

namespace Hierarchy

variable {h : Hierarchy}

/-- A descendant keeps at least as many slots from its address point on. -/
theorem Monotone.of_descends (mono : h.Monotone) {b d : NodeId} (path : h.Descends b d) :
    (h.node b).last - (h.node b).addressPoint ≤ (h.node d).last - (h.node d).addressPoint := by
  induction path with
  | refl => exact Nat.le_refl _
  | step edge _ ih => exact Nat.le_trans (mono _ _ (succ_childGraph h _ ▸ edge)) ih

theorem monotone_iff : h.Monotone ↔ ∀ p < h.size, ∀ c ∈ h.children p,
    (h.node p).last - (h.node p).addressPoint ≤ (h.node c).last - (h.node c).addressPoint :=
  ⟨fun mono p _ c hc => mono p c hc, fun each p c hc => each p (lt_size_of_mem_children hc) c hc⟩

instance (h : Hierarchy) : Decidable h.Monotone := decidable_of_iff _ monotone_iff.symm

end Hierarchy

namespace Diamond

/-- A class, two subclasses of it, and a class below both. One of the subclasses is emitted
elsewhere and has more slots in front than the class below, whose vtable holds a thunk. -/
def records : List ClassRecord := [
  ⟨"Base", [⟨0, .empty, 0, 2, 2, []⟩],
    [.offset 0, .rtti "_ZTI4Base", .function "_ZN4Base1fEv"], true⟩,
  ⟨"Left", [⟨0, .ofList [.primary "Base"], 0, 4, 3, []⟩], [], false⟩,
  ⟨"Right", [⟨0, .ofList [.primary "Base"], 0, 2, 2, []⟩],
    [.offset 0, .rtti "_ZTI5Right", .function "_ZN5Right1fEv"], true⟩,
  ⟨"Tip", [⟨0, .ofList [.primary "Left", .primary "Right"], 0, 4, 2, []⟩],
    [.offset 0, .rtti "_ZTI3Tip", .function "_ZN3Tip1fEv", .function "_ZTv0_n24_N3Tip1gEv",
      .function "_ZN3Tip1hEv"], true⟩]

def hierarchy : Hierarchy := (Hierarchy.ofRecords records).toOption.getD .empty

theorem ofRecords_records : Hierarchy.ofRecords records = .ok hierarchy := by rfl

theorem monotone : hierarchy.Monotone := by decide +kernel

theorem size_pos : 0 < hierarchy.size := by decide +kernel

/-- `Base` is the only root. -/
theorem eq_zero_of_rootId {name : String} {id : NodeId} (hr : name ∈ hierarchy.roots)
    (found : hierarchy.rootId name = .ok id) : id = 0 := by
  have one : hierarchy.roots = ["Base"] := by decide +kernel
  have root : hierarchy.rootId "Base" = .ok 0 := by decide +kernel
  rw [one, List.mem_singleton] at hr
  exact Except.ok.inj (found.symm.trans (hr ▸ root))

end Diamond

namespace Deep

/-- A base that is emitted elsewhere, with more slots in front of its address point than there are
signed words, and a leaf below it. -/
def records : List ClassRecord := [
  ⟨"Base", [⟨0, .empty, 0, 9223372036854775809, 9223372036854775809, []⟩], [], false⟩,
  ⟨"Leaf", [⟨0, .ofList [.primary "Base"], 0, 0, 0, []⟩], [.null], true⟩]

def hierarchy : Hierarchy := (Hierarchy.ofRecords records).toOption.getD .empty

theorem ofRecords_records : Hierarchy.ofRecords records = .ok hierarchy := by rfl

theorem monotone : hierarchy.Monotone := by decide +kernel

end Deep

namespace Wide

/-- A class with one slot, and a child that is emitted elsewhere and goes on up to a last slot. -/
def records (last : Word) : List ClassRecord := [
  ⟨"Base", [⟨0, .empty, 0, 0, 0, []⟩], [.null], true⟩,
  ⟨"Child", [⟨0, .ofList [.primary "Base"], 0, last, 0, []⟩], [], false⟩]

def hierarchy (last : Word) : Hierarchy :=
  (Hierarchy.ofRecords (records last)).toOption.getD .empty

end Wide

end VtableCloud
