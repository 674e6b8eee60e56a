import Mathlib.Data.List.Chain

/-!
# Lists

* `place_unique`, `idxOf?_of_place`: in a list without repetition every element has one
  place, and a search finds it;
* `idxOf?_of_mem`, `idxOf?_snoc`: a search finds every element, the last one if it is new;
* `idxOf?_le`: a search finds an element no later than it stands;
* `take_append_cons_drop`: a list is what comes before a place, what stands there and the rest;
* `idxOf?_map_of_injective`: a renamed element is found where the element was;
* `getD_set`: a changed place is the only one that changes;
* `le_foldl_max`, `lt_foldl_max_iff`: a maximum is above all values it is taken over, and what
  lies below it lies below one of them;
* `countP_eq_countP_iff`: when two counts of which one is part of the other are equal;
* `count_eq_one_iff`: what occurs once has one place;
* `find?_eq_some_iff_of_unique`: a search finds the only element of a kind, wherever it stands;
* `filterMap_first_iff`: the first thing of a kind that a list is turned into;
* `isChain_iff_zip`: what neighbours of a list have in common.
-/

namespace VtableCloud

variable {α : Type} {l : List α}

theorem place_unique (once : l.Nodup) {i j : Nat} {a : α} (hi : l[i]? = some a)
    (hj : l[j]? = some a) : i = j := by
  have lt : i < l.length := (List.getElem?_eq_some_iff.mp hi).1
  exact (List.getElem?_inj lt once).mp (hi.trans hj.symm)

theorem idxOf?_of_place [BEq α] [LawfulBEq α] (once : l.Nodup) {i : Nat} {a : α}
    (hi : l[i]? = some a) : l.idxOf? a = some i := by
  obtain ⟨lt, eq⟩ := List.getElem?_eq_some_iff.mp hi
  refine List.idxOf?_eq_some_iff.mpr ⟨lt, eq, fun j before same => ?_⟩
  have := place_unique once (List.getElem?_eq_some_iff.mpr ⟨Nat.lt_trans before lt, same⟩) hi
  omega

theorem idxOf?_of_mem [BEq α] [LawfulBEq α] {a : α} (ha : a ∈ l) :
    l.idxOf? a = some (l.idxOf a) :=
  List.findIdx?_eq_some_of_exists ⟨a, ha, beq_self_eq_true a⟩

theorem idxOf?_le [BEq α] [LawfulBEq α] {p : Nat} {a : α} (here : l[p]? = some a) :
    ∃ q ≤ p, l.idxOf? a = some q := by
  have found := idxOf?_of_mem (List.mem_of_getElem? here)
  refine ⟨l.idxOf a, Nat.le_of_not_lt fun after => ?_, found⟩
  obtain ⟨inside, -, new⟩ := List.idxOf?_eq_some_iff.mp found
  exact new p after (List.getElem?_eq_some_iff.mp here).2

theorem idxOf?_snoc [BEq α] [LawfulBEq α] (l : List α) (x a : α) :
    (l ++ [x]).idxOf? a = (l.idxOf? a).or (if x == a then some l.length else none) := by
  simp only [List.idxOf?, List.findIdx?_append, List.findIdx?_singleton]
  cases x == a with
  | true => simp
  | false => simp

theorem take_append_cons_drop {k : Nat} {a : α} (ha : l[k]? = some a) :
    l.take k ++ a :: l.drop (k + 1) = l := by
  obtain ⟨lt, rfl⟩ := List.getElem?_eq_some_iff.mp ha
  rw [List.getElem_cons_drop, List.take_append_drop]

/-- What is renamed one to one stands at the same places. -/
theorem idxOf?_map_of_injective {β : Type} [BEq α] [LawfulBEq α] [BEq β] [LawfulBEq β] {f : α → β}
    (injective : ∀ a b, f a = f b → a = b) (a : α) : (l.map f).idxOf? (f a) = l.idxOf? a := by
  induction l with
  | nil => rfl
  | cons x l ih =>
    rw [List.map_cons, List.idxOf?_cons, List.idxOf?_cons, ih]
    by_cases here : x = a
    · rw [here, beq_self_eq_true, beq_self_eq_true]
    · have other : f x ≠ f a := fun same => here (injective x a same)
      rw [beq_false_of_ne here, beq_false_of_ne other]

theorem getD_set (l : List α) (i j : Nat) (a d : α) :
    (l.set i a).getD j d = if j = i ∧ i < l.length then a else l.getD j d := by
  rw [List.getD_eq_getElem?_getD, List.getD_eq_getElem?_getD, List.getElem?_set]
  by_cases same : j = i
  · subst same
    by_cases inside : j < l.length
    · simp [inside]
    · simp [inside]
  · simp [same, Ne.symm same]

theorem le_foldl_max (values : List Nat) (start : Nat) :
    start ≤ values.foldl max start ∧ ∀ v ∈ values, v ≤ values.foldl max start := by
  induction values generalizing start with
  | nil => simp
  | cons v values ih =>
    obtain ⟨above, each⟩ := ih (max start v)
    rw [List.foldl_cons]
    refine ⟨by omega, fun u hu => ?_⟩
    rcases List.mem_cons.mp hu with rfl | hu
    · omega
    · exact each u hu

theorem lt_foldl_max_iff {values : List Nat} {k start : Nat} :
    k < values.foldl max start ↔ k < start ∨ ∃ v ∈ values, k < v := by
  induction values generalizing start with
  | nil => simp
  | cons v values ih =>
    have split : k < max start v ↔ k < start ∨ k < v := by omega
    rw [List.foldl_cons, ih, split]
    simp [or_assoc]

/-- If all that one property holds of has another too, equally many elements have each just if
the properties hold of the same elements. -/
theorem countP_eq_countP_iff {p q : α → Bool} (sub : ∀ x ∈ l, p x = true → q x = true) :
    l.countP p = l.countP q ↔ ∀ x ∈ l, q x = true → p x = true := by
  constructor
  · intro same
    have both : (l.filter q).countP p = l.countP p := by
      rw [List.countP_filter]
      refine List.countP_congr fun x hx => ?_
      rw [Bool.and_eq_true, and_iff_left_iff_imp]
      exact sub x hx
    have all : (l.filter q).countP p = (l.filter q).length :=
      both.trans (same.trans List.countP_eq_length_filter)
    exact fun x hx hq => List.countP_eq_length.mp all x (List.mem_filter.mpr ⟨hx, hq⟩)
  · exact fun back => List.countP_congr fun x hx => ⟨sub x hx, back x hx⟩

/-- What occurs once has one place. -/
theorem count_eq_one_iff [BEq α] [LawfulBEq α] {a : α} :
    l.count a = 1 ↔ ∃ p : Nat, ∀ q : Nat, l[q]? = some a ↔ q = p := by
  induction l with
  | nil => simp
  | cons x l ih =>
    by_cases here : x = a
    · subst here
      rw [List.count_cons_self, Nat.add_eq_right, List.count_eq_zero]
      constructor
      · intro absent
        refine ⟨0, fun q => ?_⟩
        cases q with
        | zero => simp
        | succ q =>
          simp only [List.getElem?_cons_succ, Nat.add_one_ne_zero, iff_false]
          exact fun there => absent (List.mem_of_getElem? there)
      · rintro ⟨p, only⟩ later
        obtain ⟨q, hq⟩ := List.mem_iff_getElem?.mp later
        have first := (only 0).mp rfl
        have second := (only (q + 1)).mp hq
        omega
    · rw [List.count_cons_of_ne (by simpa using here), ih]
      constructor
      · rintro ⟨p, only⟩
        refine ⟨p + 1, fun q => ?_⟩
        cases q with
        | zero => simp [here]
        | succ q => simp [only]
      · rintro ⟨p, only⟩
        cases p with
        | zero => exact absurd ((only 0).mpr rfl) (by simp [here])
        | succ p => exact ⟨p, fun q => by simpa using only (q + 1)⟩

/-- Where at most one element has a property, it is the one that a search finds. -/
theorem find?_eq_some_iff_of_unique {p : α → Bool}
    (unique : ∀ a ∈ l, ∀ b ∈ l, p a = true → p b = true → a = b) {a : α} :
    l.find? p = some a ↔ a ∈ l ∧ p a = true := by
  constructor
  · intro found
    exact ⟨List.mem_of_find?_eq_some found, List.find?_some found⟩
  · rintro ⟨ha, holds⟩
    cases found : l.find? p with
    | some b =>
      have hb := List.mem_of_find?_eq_some found
      rw [unique b hb a ha (List.find?_some found) holds]
    | none => exact absurd holds (List.find?_eq_none.mp found a ha)

/-- Something that a list is turned into comes first in some respect, just if no element before
the one it is made of gives anything like it. -/
theorem filterMap_first_iff {α β : Type} {f : α → Option β} {xs : List α} {x : β} {P : β → Prop} :
    (∃ before after, xs.filterMap f = before ++ x :: after ∧ ∀ y ∈ before, P y) ↔
      ∃ p : Nat, xs[p]?.bind f = some x ∧ ∀ q < p, ∀ y, xs[q]?.bind f = some y → P y := by
  constructor
  · rintro ⟨before, after, eq, first⟩
    obtain ⟨front, back, rfl, rfl, tail⟩ := List.filterMap_eq_append_iff.mp eq
    obtain ⟨none, a, rest, rfl, skipped, found, -⟩ := List.filterMap_eq_cons_iff.mp tail
    rw [← List.append_assoc]
    refine ⟨(front ++ none).length, by simpa using found, fun q before y hy => ?_⟩
    obtain ⟨b, hb, made⟩ := Option.bind_eq_some_iff.mp hy
    rw [List.getElem?_append_left before] at hb
    obtain inFront | inNone := List.mem_append.mp (List.mem_of_getElem? hb)
    · exact first y (List.mem_filterMap.mpr ⟨b, inFront, made⟩)
    · rw [skipped b inNone] at made
      cases made
  · rintro ⟨p, found, first⟩
    obtain ⟨a, ha, made⟩ := Option.bind_eq_some_iff.mp found
    refine ⟨(xs.take p).filterMap f, (xs.drop (p + 1)).filterMap f, ?_, fun y hy => ?_⟩
    · rw [← List.filterMap_cons_some made, ← List.filterMap_append, take_append_cons_drop ha]
    · obtain ⟨b, hb, made⟩ := List.mem_filterMap.mp hy
      obtain ⟨q, hq, rfl⟩ := List.mem_take_iff_getElem.mp hb
      apply first q (by omega) y
      rw [List.getElem?_eq_getElem (by omega)]
      exact made

/-- Neighbours of a list stand side by side in the list and what follows its first element. -/
theorem isChain_iff_zip {R : α → α → Prop} : l.IsChain R ↔ ∀ x ∈ l.zip (l.drop 1), R x.1 x.2 := by
  induction l with
  | nil => simp
  | cons a l ih =>
    cases l with
    | nil => simp
    | cons b l => simpa using fun _ => ih

end VtableCloud
