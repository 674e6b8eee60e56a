import VtableCloud.Arrangement.Member

/-!
# Where a table holds the slots of a member

One pass over the table notes for each slot of the member the first position that
holds it.

* `Member.firstPlaces` makes this pass;
* `Member.getElem?_firstPlaces`: what it notes is what a search for each slot finds;
* `Member.positions` lists the positions found.
-/

namespace VtableCloud

/-- The positions among noted places. -/
def notedPositions (places : Array (Option Nat)) : List Nat :=
  places.toList.filterMap fun place => place

namespace Member

/-- The offset of a slot of the member's class from the first slot of the member, if it
does not come before it. -/
def offset? (m : Member) : Slot → Option Nat
  | .dummy => none
  | .entry key index =>
    if key = m.key ∧ m.first ≤ index then some (index - m.first).toNat else none

theorem offset?_eq_some {m : Member} {slot : Slot} {i : Nat} :
    m.offset? slot = some i ↔ slot = m.entry i := by
  cases slot with
  | dummy => simp [offset?, entry]
  | entry key index =>
    simp only [offset?, entry, Slot.entry.injEq]
    constructor
    · intro h
      split at h
      · rename_i within
        simp only [Option.some.injEq] at h
        exact ⟨within.1, by omega⟩
      · simp at h
    · rintro ⟨rfl, rfl⟩
      rw [if_pos ⟨rfl, by omega⟩]
      exact congrArg some (by omega)

/-- Note the position of a slot of the member, unless an earlier one is noted. -/
def notePlace (m : Member) (places : Array (Option Nat)) (position : Nat) (slot : Slot) :
    Array (Option Nat) :=
  match m.offset? slot with
  | some i => places.modify i fun place => place.or (some position)
  | none => places

/-- Note the positions of the slots that stand in a table from a position on. -/
def notePlaces (m : Member) (places : Array (Option Nat)) (position : Nat) :
    List Slot → Array (Option Nat)
  | [] => places
  | slot :: rest => m.notePlaces (m.notePlace places position slot) (position + 1) rest

/-- For each slot of the member the first position that holds it, if one does. -/
def firstPlaces (m : Member) (slots : List Slot) : Array (Option Nat) :=
  m.notePlaces (Array.replicate m.extent none) 0 slots

theorem getElem?_notePlace {m : Member} {places : Array (Option Nat)} {position i : Nat}
    {slot : Slot} :
    (m.notePlace places position slot)[i]? =
      places[i]?.map (·.or (if slot = m.entry i then some position else none)) := by
  rw [notePlace]
  split
  · rename_i j h
    rw [Array.getElem?_modify]
    by_cases eq : j = i
    · subst eq
      rw [if_pos rfl, if_pos (offset?_eq_some.mp h)]
    · rw [if_neg eq, if_neg fun e => eq ?_]
      · simp
      · have := offset?_eq_some.mpr e
        simp_all
  · rename_i h
    rw [if_neg fun e => ?_]
    · simp
    · have := offset?_eq_some.mpr e
      simp_all

theorem getElem?_notePlaces {m : Member} {i : Nat} (slots : List Slot) :
    ∀ (places : Array (Option Nat)) (position : Nat),
      (m.notePlaces places position slots)[i]? =
        places[i]?.map (·.or ((slots.idxOf? (m.entry i)).map (position + ·))) := by
  induction slots with
  | nil => simp [notePlaces]
  | cons slot rest ih =>
    intro places position
    rw [notePlaces, ih, getElem?_notePlace, Option.map_map, List.idxOf?_cons]
    congr 1
    funext place
    by_cases eq : slot = m.entry i
    · cases place <;> simp [eq]
    · cases place <;> simp [eq, Nat.add_assoc, Nat.add_comm 1, Function.comp_def]

/-- The place noted for a slot is the first position that holds it. -/
theorem getElem?_firstPlaces {m : Member} {slots : List Slot} {i : Nat} (lt : i < m.extent) :
    (m.firstPlaces slots)[i]? = some (slots.idxOf? (m.entry i)) := by
  rw [firstPlaces, getElem?_notePlaces, Array.getElem?_replicate, if_pos lt]
  simp

theorem size_notePlaces {m : Member} (slots : List Slot) :
    ∀ (places : Array (Option Nat)) (position : Nat),
      (m.notePlaces places position slots).size = places.size := by
  induction slots with
  | nil => simp [notePlaces]
  | cons slot rest ih =>
    intro places position
    rw [notePlaces, ih, notePlace]
    split <;> simp

theorem toList_firstPlaces (m : Member) (slots : List Slot) :
    (m.firstPlaces slots).toList = m.entries.map (slots.idxOf? ·) := by
  have size : (m.firstPlaces slots).size = m.extent := by simp [firstPlaces, size_notePlaces]
  refine List.ext_getElem? fun i => ?_
  rw [Array.getElem?_toList]
  rcases Nat.lt_or_ge i m.extent with lt | ge
  · rw [getElem?_firstPlaces lt]
    simp [entries, lt]
  · simp [entries, ge, size]

/-- The positions of a member's slots in a table, in the order of the slots. -/
def positions (m : Member) (slots : List Slot) : List Nat :=
  notedPositions (m.firstPlaces slots)

theorem positions_eq (m : Member) (slots : List Slot) :
    m.positions slots = m.entries.filterMap (slots.idxOf? ·) := by
  rw [positions, notedPositions, toList_firstPlaces, List.filterMap_map]
  rfl

end Member

end VtableCloud
