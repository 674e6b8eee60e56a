/-!
# Sub-vtable keys

A sub-vtable is named by its class and its place in that class's vtable group.
Keys are ordered by class name and then by place, which numbers the nodes of a
hierarchy and fixes the order of every listing.

* `SubVtableKey.lt_trichotomy`, `lt_trans`, `lt_irrefl`: the order is strict and total;
* `KeySet.mem_insert`, `KeySet.mem_ofList`: what a set of keys holds.
-/

namespace VtableCloud

/-- A class name and the order of one sub-vtable in the class's vtable group.
Order 0 is the primary sub-vtable. -/
structure SubVtableKey where
  className : String
  order : Nat
  deriving DecidableEq, Repr, Inhabited

namespace SubVtableKey

/-- The primary sub-vtable of a class. -/
def primary (className : String) : SubVtableKey := ⟨className, 0⟩

def isPrimary (k : SubVtableKey) : Bool := k.order == 0

/-- The written form of a key, `(class,order)`. -/
def text (k : SubVtableKey) : String := s!"({k.className},{k.order})"

/-- Class names compare by code point, orders as numbers. -/
instance : LT SubVtableKey :=
  ⟨fun a b => a.className < b.className ∨ (a.className = b.className ∧ a.order < b.order)⟩

instance (a b : SubVtableKey) : Decidable (a < b) :=
  inferInstanceAs
    (Decidable (a.className < b.className ∨ (a.className = b.className ∧ a.order < b.order)))

theorem lt_irrefl (a : SubVtableKey) : ¬ a < a := by
  rintro (h | ⟨_, h⟩)
  · exact String.lt_irrefl _ h
  · exact Nat.lt_irrefl _ h

theorem lt_trans {a b c : SubVtableKey} (hab : a < b) (hbc : b < c) : a < c := by
  rcases hab with hab | ⟨eab, hab⟩ <;> rcases hbc with hbc | ⟨ebc, hbc⟩
  · exact Or.inl (String.lt_trans hab hbc)
  · exact Or.inl (ebc ▸ hab)
  · exact Or.inl (eab ▸ hbc)
  · exact Or.inr ⟨eab.trans ebc, Nat.lt_trans hab hbc⟩

theorem lt_trichotomy (a b : SubVtableKey) : a < b ∨ a = b ∨ b < a := by
  by_cases lt : a.className < b.className
  · exact Or.inl (Or.inl lt)
  by_cases gt : b.className < a.className
  · exact Or.inr (Or.inr (Or.inl gt))
  have name : a.className = b.className :=
    String.le_antisymm (String.not_lt.mp gt) (String.not_lt.mp lt)
  rcases Nat.lt_trichotomy a.order b.order with h | h | h
  · exact Or.inl (Or.inr ⟨name, h⟩)
  · refine Or.inr (Or.inl ?_)
    cases a; cases b; simp_all
  · exact Or.inr (Or.inr (Or.inr ⟨name.symm, h⟩))

end SubVtableKey

/-- A set of keys, kept as its strictly increasing listing. -/
structure KeySet where
  keys : List SubVtableKey
  sorted : keys.Pairwise (· < ·)
  deriving DecidableEq, Repr

namespace KeySet

def empty : KeySet := ⟨[], .nil⟩

instance : Inhabited KeySet := ⟨empty⟩

/-- Put a key into an increasing listing, unless it is there already. -/
def insertKey (k : SubVtableKey) : List SubVtableKey → List SubVtableKey
  | [] => [k]
  | x :: xs => if k < x then k :: x :: xs else if k = x then x :: xs else x :: insertKey k xs

theorem mem_insertKey {k y : SubVtableKey} {xs : List SubVtableKey} :
    y ∈ insertKey k xs ↔ y = k ∨ y ∈ xs := by
  induction xs with
  | nil => simp [insertKey]
  | cons x xs ih =>
    simp only [insertKey]
    split
    · simp
    · split
      · rename_i eq
        simp [eq]
      · simp [ih, or_left_comm]

theorem insertKey_sorted {k : SubVtableKey} {xs : List SubVtableKey}
    (h : xs.Pairwise (· < ·)) : (insertKey k xs).Pairwise (· < ·) := by
  induction xs with
  | nil => simp [insertKey]
  | cons x xs ih =>
    rw [List.pairwise_cons] at h
    simp only [insertKey]
    split
    · rename_i lt
      refine List.pairwise_cons.mpr ⟨?_, List.pairwise_cons.mpr h⟩
      intro y hy
      rcases List.mem_cons.mp hy with rfl | hy
      · exact lt
      · exact SubVtableKey.lt_trans lt (h.1 y hy)
    · split
      · exact List.pairwise_cons.mpr h
      · rename_i ge ne
        refine List.pairwise_cons.mpr ⟨?_, ih h.2⟩
        intro y hy
        rcases mem_insertKey.mp hy with rfl | hy
        · rcases SubVtableKey.lt_trichotomy y x with lt | eq | gt
          · exact absurd lt ge
          · exact absurd eq ne
          · exact gt
        · exact h.1 y hy

def insert (s : KeySet) (k : SubVtableKey) : KeySet :=
  ⟨insertKey k s.keys, insertKey_sorted s.sorted⟩

/-- The set of the listed keys, whatever their order and however often they are listed. -/
def ofList (ks : List SubVtableKey) : KeySet := ks.foldl insert empty

instance : Membership SubVtableKey KeySet := ⟨fun s k => k ∈ s.keys⟩

theorem mem_def {s : KeySet} {k : SubVtableKey} : k ∈ s ↔ k ∈ s.keys := Iff.rfl

@[simp] theorem mem_insert {s : KeySet} {k y : SubVtableKey} :
    y ∈ s.insert k ↔ y = k ∨ y ∈ s := mem_insertKey

@[simp] theorem not_mem_empty {k : SubVtableKey} : ¬ k ∈ empty := List.not_mem_nil

@[simp] theorem mem_ofList {ks : List SubVtableKey} {k : SubVtableKey} :
    k ∈ ofList ks ↔ k ∈ ks := by
  have go : ∀ (s : KeySet), k ∈ ks.foldl insert s ↔ k ∈ ks ∨ k ∈ s := by
    induction ks with
    | nil => simp
    | cons x xs ih => intro s; simp [ih, or_assoc, or_left_comm]
  simp [ofList, go]

end KeySet

end VtableCloud
