import VtableCloud.Layouts.Range
import VtableCloud.Proofs.Hierarchy.Query
import VtableCloud.Proofs.Layouts.Build
import VtableCloud.Proofs.Range.Tuple

/-!
# Where a call through a key may go

* `Layouts.Target`: the address points that a call through a key may load a pointer to;
* `Built.mem_points`, `Built.sorted_points`, `Built.length_points`: these are the points below
  the key's node, which are listed once each, in ascending order;
* `rangeFor_eq_none`, `Built.rangeFor_of_descends`: a key has ranges just if it has targets.
-/

namespace VtableCloud

namespace Layouts

variable {l : Layouts} {id : NodeId}

/-- A position is the address point of a defined sub-vtable that descends from a key. -/
def Target (l : Layouts) (key : SubVtableKey) (position : Nat) : Prop :=
  ∃ id d c, l.hierarchy.find? key = some id ∧ l.hierarchy.Descends id d ∧
    l.hierarchy.isDefined d = true ∧ l.cloudOf d = .ok c ∧
    c.addressPointPosition? l.hierarchy (l.hierarchy.key d) = some position

/-- A byte offset into a table is the address point of such a sub-vtable. -/
def TargetAddress (l : Layouts) (key : SubVtableKey) (address : UInt64) : Prop :=
  ∃ id d c, l.hierarchy.find? key = some id ∧ l.hierarchy.Descends id d ∧
    l.hierarchy.isDefined d = true ∧ l.cloudOf d = .ok c ∧
    c.addressPointOffset? l.hierarchy (l.hierarchy.key d) = some address.toNat

/-- The new address points of the defined nodes below a node, in the order of its cloud. -/
def points (l : Layouts) (id : NodeId) : List Nat :=
  ((l.hierarchy.below (l.hierarchy.cloudRoot id) id).filter (l.hierarchy.isDefined ·)).map
    ((l.arrangedCloud id).addressPoint l.hierarchy)

/-- There are no ranges for a key that is unknown or has nothing defined below it. -/
theorem rangeFor_eq_none (l : Layouts) {key : SubVtableKey} (precision : Precision)
    (none : ∀ id, l.hierarchy.find? key = some id → ∀ d, l.hierarchy.Descends id d →
      l.hierarchy.isDefined d = false) : l.rangeFor key precision = .ok .none := by
  rw [rangeFor]
  cases found : l.hierarchy.find? key with
  | none => rfl
  | some id => simp only [Hierarchy.representative_eq_error (none id found)]

/-- A key has a defined descendant, or it meets the condition to have no ranges. -/
theorem defined_below_or_none (l : Layouts) (key : SubVtableKey) :
    (∃ id d, l.hierarchy.find? key = some id ∧ l.hierarchy.Descends id d ∧
      l.hierarchy.isDefined d = true) ∨
      ∀ id, l.hierarchy.find? key = some id → ∀ d, l.hierarchy.Descends id d →
        l.hierarchy.isDefined d = false := by
  cases found : l.hierarchy.find? key with
  | none => exact .inr nofun
  | some id =>
    obtain ⟨d, path, defined⟩ | none := l.hierarchy.defined_below_or_none id
    · exact .inl ⟨id, d, rfl, path, defined⟩
    · refine .inr fun id' same => ?_
      obtain rfl := Option.some.inj same
      exact none

namespace Built

/-- A descendant is hosted in the same table. -/
theorem cloudOf_of_descends (built : l.Built) (lt : id < l.hierarchy.size) {d : NodeId}
    (path : l.hierarchy.Descends id d) : l.cloudOf d = .ok (l.arrangedCloud id) := by
  rw [built.cloudOf d (built.wf.lt_size_of_descends path lt), arrangedCloud, arrangedCloud,
    built.wf.cloudRoot_of_descends path]

theorem addressPointPosition? (built : l.Built) {d : NodeId}
    (path : l.hierarchy.Descends (l.hierarchy.cloudRoot id) d) (lt : id < l.hierarchy.size)
    (defined : l.hierarchy.isDefined d = true) :
    (l.arrangedCloud id).addressPointPosition? l.hierarchy (l.hierarchy.key d) =
      some ((l.arrangedCloud id).addressPoint l.hierarchy d) :=
  built.wf.addressPointPosition?_of_isDefined (built.fits id lt) path defined

theorem mem_points (built : l.Built) {p : Nat} :
    p ∈ l.points id ↔ ∃ d, l.hierarchy.Descends id d ∧ l.hierarchy.isDefined d = true ∧
      (l.arrangedCloud id).addressPoint l.hierarchy d = p := by
  simp only [points, List.mem_map, List.mem_filter,
    Hierarchy.mem_below (built.wf.descends_cloudRoot id), and_assoc]

/-- The targets of a key are the points below its node. -/
theorem target_iff (built : l.Built) {key : SubVtableKey} {p : Nat}
    (found : l.hierarchy.find? key = some id) : l.Target key p ↔ p ∈ l.points id := by
  have lt := (built.wf.find?_eq_some.mp found).1
  have inside {d : NodeId} (path : l.hierarchy.Descends id d) :=
    (built.wf.descends_cloudRoot id).trans path
  rw [built.mem_points]
  constructor
  · rintro ⟨id', d, c, found', path, defined, host, position⟩
    obtain rfl := Option.some.inj (found.symm.trans found')
    obtain rfl := Except.ok.inj ((built.cloudOf_of_descends lt path).symm.trans host)
    rw [built.addressPointPosition? (inside path) lt defined] at position
    exact ⟨d, path, defined, Option.some.inj position⟩
  · rintro ⟨d, path, defined, rfl⟩
    exact ⟨id, d, _, found, path, defined, built.cloudOf_of_descends lt path,
      built.addressPointPosition? (inside path) lt defined⟩

/-- The points below a node are listed in ascending order. -/
theorem sorted_points (built : l.Built) (lt : id < l.hierarchy.size) :
    (l.points id).Pairwise (· < ·) := by
  have sorted := built.wf.sorted_addressPoints (built.fits id lt)
  exact sorted.sublist ((List.filter_sublist.filter _).map _)

theorem dvd_of_mem_points (built : l.Built) (lt : id < l.hierarchy.size) {p : Nat}
    (hp : p ∈ l.points id) : (l.arrangedCloud id).alignment ∣ p := by
  obtain ⟨d, path, defined, rfl⟩ := built.mem_points.mp hp
  exact built.wf.dvd_addressPoint (built.fits id lt)
    ((built.wf.descends_cloudRoot id).trans path) defined

theorem lt_of_mem_points (built : l.Built) (lt : id < l.hierarchy.size) {p : Nat}
    (hp : p ∈ l.points id) : p < (l.arrangedCloud id).slots.length := by
  obtain ⟨d, path, defined, rfl⟩ := built.mem_points.mp hp
  exact built.wf.addressPoint_lt_length (built.fits id lt)
    ((built.wf.descends_cloudRoot id).trans path) defined

theorem length_points (built : l.Built) : (l.points id).length = l.hierarchy.cloudSize id := by
  rw [points, List.length_map, ← List.countP_eq_length_filter, Hierarchy.cloudSize]
  exact (Hierarchy.perm_below (built.wf.descends_cloudRoot id)).countP_eq _

/-- The address points found for the defined ones among nodes of a cloud. -/
theorem addressPointSlots (built : l.Built) (lt : id < l.hierarchy.size) {ids : List NodeId}
    (inside : ∀ d ∈ ids, l.hierarchy.Descends (l.hierarchy.cloudRoot id) d) :
    l.addressPointSlots (l.arrangedCloud id) ids =
      .ok ((ids.filter (l.hierarchy.isDefined ·)).map
        ((l.arrangedCloud id).addressPoint l.hierarchy)) := by
  refine mapM_ok_of_forall fun d hd => ?_
  obtain ⟨mem, defined⟩ := List.mem_filter.mp hd
  rw [addressPointSlot, built.addressPointPosition? (inside d mem) lt defined]

theorem alignment_pos (built : l.Built) (lt : id < l.hierarchy.size) {p : Nat}
    (hp : p ∈ l.points id) : 0 < (l.arrangedCloud id).alignment := by
  obtain ⟨d, path, defined, -⟩ := built.mem_points.mp hp
  exact built.wf.alignment_pos (built.fits id lt) ((built.wf.descends_cloudRoot id).trans path)
    defined

/-- The distance of address points in bytes, as long as there are any. -/
theorem step_pos (built : l.Built) (lt : id < l.hierarchy.size) {p : Nat} (hp : p ∈ l.points id) :
    0 < (l.arrangedCloud id).alignment * (l.arrangedCloud id).wordWidth :=
  Nat.mul_pos (built.alignment_pos lt hp) built.positive

/-! ## Addresses -/

/-- The byte offset of an address point that is listed below a node. -/
theorem addressPointOffset?_of_descends (built : l.Built) (lt : id < l.hierarchy.size) {d : NodeId}
    (path : l.hierarchy.Descends id d) (defined : l.hierarchy.isDefined d = true) :
    (l.arrangedCloud id).addressPointOffset? l.hierarchy (l.hierarchy.key d) = some (unsignedWord
      ((l.arrangedCloud id).addressPoint l.hierarchy d * l.options.wordWidth)) := by
  rw [CloudLayout.addressPointOffset?,
    built.addressPointPosition? ((built.wf.descends_cloudRoot id).trans path) lt defined]
  rfl

/-- In a table that fits in the address space the byte offsets of address points are words. -/
theorem bytes_lt (built : l.Built) (fits : l.FitsAddressSpace) (lt : id < l.hierarchy.size)
    {p : Nat} (hp : p ∈ l.points id) : p * l.options.wordWidth < wordCount := by
  have below := Nat.le_of_lt (built.lt_of_mem_points lt hp)
  have within := Nat.mul_le_mul_right l.options.wordWidth below
  have room : (l.arrangedCloud id).slots.length * l.options.wordWidth +
    (l.arrangedCloud id).alignment * l.options.wordWidth < wordCount := fits _ (built.hosted id lt)
  omega

/-- A defined descendant is told by the byte offset of its address point. -/
theorem addressPointOffset?_eq_some (built : l.Built) (fits : l.FitsAddressSpace)
    (lt : id < l.hierarchy.size) {d : NodeId} (path : l.hierarchy.Descends id d)
    (defined : l.hierarchy.isDefined d = true) {d' : NodeId} :
    (l.hierarchy.Descends id d' ∧ l.hierarchy.isDefined d' = true ∧
      (l.arrangedCloud id).addressPointOffset? l.hierarchy (l.hierarchy.key d') =
        some ((l.arrangedCloud id).addressPoint l.hierarchy d * l.options.wordWidth)) ↔ d' = d := by
  have up := built.wf.descends_cloudRoot id
  have inside {x : NodeId} (path : l.hierarchy.Descends id x)
      (defined : l.hierarchy.isDefined x = true) :=
    unsignedWord_of_lt (built.bytes_lt fits lt (built.mem_points.mpr ⟨x, path, defined, rfl⟩))
  constructor
  · rintro ⟨path', defined', offset⟩
    rw [built.addressPointOffset?_of_descends lt path' defined', inside path' defined'] at offset
    exact built.wf.addressPoint_inj (built.fits id lt) (up.trans path') (up.trans path)
      defined' defined (Nat.eq_of_mul_eq_mul_right built.positive (Option.some.inj offset))
  · rintro rfl
    refine ⟨path, defined, ?_⟩
    rw [built.addressPointOffset?_of_descends lt path defined, inside path defined]

/-- The targets of a key in bytes. -/
theorem targetAddress_iff (built : l.Built) {key : SubVtableKey} {address : UInt64}
    (fits : l.FitsAddressSpace) (found : l.hierarchy.find? key = some id) :
    l.TargetAddress key address ↔
      ∃ p ∈ l.points id, address.toNat = p * l.options.wordWidth := by
  have lt := (built.wf.find?_eq_some.mp found).1
  constructor
  · rintro ⟨id', d, c, found', path, defined, host, offset⟩
    obtain rfl := Option.some.inj (found.symm.trans found')
    obtain rfl := Except.ok.inj ((built.cloudOf_of_descends lt path).symm.trans host)
    have hp := built.mem_points.mpr ⟨d, path, defined, rfl⟩
    rw [built.addressPointOffset?_of_descends lt path defined,
      unsignedWord_of_lt (built.bytes_lt fits lt hp)] at offset
    exact ⟨_, hp, (Option.some.inj offset).symm⟩
  · rintro ⟨p, hp, eq⟩
    have inside := unsignedWord_of_lt (built.bytes_lt fits lt hp)
    obtain ⟨d, path, defined, rfl⟩ := built.mem_points.mp hp
    refine ⟨id, d, _, found, path, defined, built.cloudOf_of_descends lt path, ?_⟩
    rw [built.addressPointOffset?_of_descends lt path defined, inside, eq]

/-! ## Ranges -/

theorem rangeFor_of_descends (built : l.Built) {key : SubVtableKey} {d : NodeId}
    (found : l.hierarchy.find? key = some id) (path : l.hierarchy.Descends id d)
    (defined : l.hierarchy.isDefined d = true) (precision : Precision) :
    l.rangeFor key precision = match precision with
      | .single => some <$> l.singleRange (l.arrangedCloud id) id
      | .precise => some <$> l.preciseRanges (l.arrangedCloud id) id := by
  obtain ⟨r, represented, -⟩ := Hierarchy.representative_of_descends path defined
  have lt := (built.wf.find?_eq_some.mp found).1
  rw [rangeFor, found]
  simp only [represented, built.cloudOf id lt]
  rfl

end Built

end Layouts

end VtableCloud
