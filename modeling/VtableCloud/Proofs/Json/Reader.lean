import VtableCloud.Proofs.Json.Tokens

/-!
# Reading the texts of a value

Every text of a value is read as that value, wherever it has blanks.

* `Spells.begins`: a text begins with a character that blanks are skipped up to;
* `Spells.reads`: every part of a text, with two units of fuel for each character;
* `SpelledBy.read?_eq`: the whole text.
-/

namespace VtableCloud

namespace Json

/-! ## The readers, one call deep -/

theorem value?_number {c : Char} (begins : isDigit c = true ∨ c = '-') (fuel : Nat)
    (cs : List Char) : value? (fuel + 1) (c :: cs) = number? (c :: cs) := by
  apply value?.eq_8 <;> intro rest same <;> obtain ⟨rfl, -⟩ := List.cons.inj same <;>
    exact absurd begins (by decide)

theorem value?_string {s : String} {cs : List Char} (spelled : SpellsString s cs) (fuel : Nat)
    (rest : List Char) : value? (fuel + 1) (cs ++ rest) = some (str s, rest) := by
  obtain ⟨inside, units, rfl, text, read⟩ := spelled.reads
  rw [List.cons_append, value?]
  simp [read, text]

/-- An array that is not empty is read as its items are. -/
theorem value?_arr {gap cs : List Char} (blanks : Blanks gap) (begins : Begins cs) (fuel : Nat) :
    value? (fuel + 1) ('[' :: (gap ++ cs))
      = (items? fuel cs).map fun read => (arr read.1, read.2) := by
  have visible := begins.skipBlanks_eq
  obtain ⟨c, rest, rfl, -, noClose, -⟩ := begins
  rw [value?, skipBlanks_append blanks, visible]
  split
  · exact absurd (List.cons.inj ‹_›).1 noClose
  · rfl

/-- An object that is not empty is read as its members are. -/
theorem value?_obj {gap cs : List Char} (blanks : Blanks gap) (begins : Begins cs) (fuel : Nat) :
    value? (fuel + 1) ('\x7b' :: (gap ++ cs))
      = (members? fuel cs).map fun read => (objectOf read.1, read.2) := by
  have visible := begins.skipBlanks_eq
  obtain ⟨c, rest, rfl, -, -, noClose⟩ := begins
  rw [value?, skipBlanks_append blanks, visible]
  split
  · exact absurd (List.cons.inj ‹_›).1 noClose
  · rfl

/-- What is read of an item depends on what follows it. -/
theorem items?_value {j : Json} {fuel : Nat} {cs rest : List Char}
    (value : value? fuel (cs ++ rest) = some (j, rest)) :
    items? (fuel + 1) (cs ++ rest) =
      match skipBlanks rest with
      | ']' :: rest => some ([j], rest)
      | ',' :: rest =>
        (items? fuel (skipBlanks rest)).bind fun read => some (j :: read.1, read.2)
      | _ => none := by
  rw [items?, value]
  rfl

/-- What is read of the members of an object whose names are texts. -/
theorem objectOf_texts (ms : List (String × Json)) :
    objectOf (ms.map fun m => (some m.1, m.2)) = obj ms := by
  have texts : (ms.map fun m => (some m.1, m.2)).mapM
      (fun m : Option String × Json => m.1.map (·, m.2)) = some ms := by
    induction ms with
    | nil => rfl
    | cons m ms ih => simp [ih]
  rw [objectOf, texts]

/-- What is read of a member depends on what follows its value. -/
theorem members?_name {s : String} {ns : List Char} (name : SpellsName s ns) {j : Json}
    {fuel : Nat} {cs rest : List Char} (begins : Begins cs)
    (value : value? fuel (cs ++ rest) = some (j, rest)) :
    members? (fuel + 1) (ns ++ (cs ++ rest)) =
      match skipBlanks rest with
      | '\x7d' :: rest => some ([(some s, j)], rest)
      | ',' :: rest =>
        (members? fuel (skipBlanks rest)).bind fun read => some ((some s, j) :: read.1, read.2)
      | _ => none := by
  obtain ⟨string, before, behind⟩ := name
  obtain ⟨inside, units, rfl, text, read⟩ := string.reads
  have colon : isBlank ':' = false := by decide
  have visible := (begins.append rest).skipBlanks_eq
  simp only [List.cons_append, List.append_assoc, members?, read, Option.bind_eq_bind,
    Option.bind_some, skipBlanks_append before, skipBlanks_of_not colon, skipBlanks_append behind,
    visible, value, text]
  rfl

/-! ## How texts begin -/

theorem SpellsString.begins {s : String} {cs : List Char} (spelled : SpellsString s cs) :
    Begins cs := by
  obtain ⟨inside⟩ := spelled
  exact ⟨'"', _, rfl, by decide⟩

theorem SpellsName.begins {s : String} {cs : List Char} (spelled : SpellsName s cs) :
    Begins cs := by
  obtain ⟨string, _, _⟩ := spelled
  exact string.begins.append _

theorem begins_int (i : Int) : Begins (toString i).toList := by
  obtain ⟨c, cs, written, begins⟩ := int_begins i
  have ne {d : Char} (other : ¬ (isDigit d = true ∨ d = '-')) : c ≠ d := by
    rintro rfl
    exact other begins
  refine ⟨c, cs, written, ?_, ne (by decide), ne (by decide)⟩
  have space : c ≠ ' ' := ne (by decide)
  have tab : c ≠ '\t' := ne (by decide)
  have lineFeed : c ≠ '\n' := ne (by decide)
  have carriageReturn : c ≠ '\r' := ne (by decide)
  simp [isBlank, space, tab, lineFeed, carriageReturn]

/-- Every text begins with a character that can follow blanks, a bracket or a comma. -/
theorem Spells.begins {part : Part} {cs : List Char} (spelled : Spells part cs) : Begins cs := by
  induction spelled with
  | null => exact ⟨'n', _, rfl, by decide⟩
  | yes => exact ⟨'t', _, rfl, by decide⟩
  | no => exact ⟨'f', _, rfl, by decide⟩
  | int i => exact begins_int i
  | foreign => exact ⟨'0', _, rfl, by decide⟩
  | str string => exact string.begins
  | emptyArr => exact ⟨'[', _, rfl, by decide⟩
  | arr => exact ⟨'[', _, rfl, by decide⟩
  | emptyObj => exact ⟨'\x7b', _, rfl, by decide⟩
  | obj => exact ⟨'\x7b', _, rfl, by decide⟩
  | lastItem _ _ ih => exact ih.append _
  | item _ _ _ _ ih => exact ih.append _
  | lastMember name => exact name.begins.append _
  | member name => exact name.begins.append _

/-! ## Whole texts -/

/-- What is read of a part of a text. A value is read in front of anything that does not
continue a number. -/
def Reads : Part → List Char → Prop
  | .value j, cs => ∀ fuel rest, 2 * cs.length ≤ fuel + 1 → Stops rest →
      value? (fuel + 1) (cs ++ rest) = some (j, rest)
  | .items js, cs => ∀ fuel rest, 2 * cs.length ≤ fuel + 1 →
      items? (fuel + 1) (cs ++ rest) = some (js, rest)
  | .members ms, cs => ∀ fuel rest, 2 * cs.length ≤ fuel + 1 →
      members? (fuel + 1) (cs ++ rest) = some (ms.map fun m => (some m.1, m.2), rest)

namespace Reads

section Fuel

variable {cs : List Char} {fuel : Nat} (begins : Begins cs) (enough : 2 * cs.length ≤ fuel)
include begins enough

/-- Two units of fuel for each character are at least one. -/
theorem exists_fuel : ∃ less, fuel = less + 1 :=
  ⟨fuel - 1, by have := begins.length_pos; omega⟩

theorem value?_eq {j : Json} (reads : Reads (.value j) cs) {rest : List Char}
    (stops : Stops rest) : value? fuel (cs ++ rest) = some (j, rest) := by
  obtain ⟨less, rfl⟩ := exists_fuel begins enough
  exact reads less rest enough stops

theorem items?_eq {js : List Json} (reads : Reads (.items js) cs) (rest : List Char) :
    items? fuel (cs ++ rest) = some (js, rest) := by
  obtain ⟨less, rfl⟩ := exists_fuel begins enough
  exact reads less rest enough

theorem members?_eq {ms : List (String × Json)} (reads : Reads (.members ms) cs)
    (rest : List Char) :
    members? fuel (cs ++ rest) = some (ms.map fun m => (some m.1, m.2), rest) := by
  obtain ⟨less, rfl⟩ := exists_fuel begins enough
  exact reads less rest enough

end Fuel

/-! One lemma for each kind of text that is put together of others. The fuel pays for each call
with a character that the call does not pass on. -/

variable {j : Json} {js : List Json} {s : String} {ms : List (String × Json)}
  {ns cs gap gap' more : List Char}

theorem int (i : Int) : Reads (.value (.int i)) (toString i).toList := by
  intro fuel rest _ stops
  have read := number?_int i stops
  obtain ⟨c, cs, written, begins⟩ := int_begins i
  rw [written] at read ⊢
  exact (value?_number begins fuel (cs ++ rest)).trans read

theorem foreign : Reads (.value .foreign) "0.5".toList := by
  intro fuel rest _ stops
  exact (value?_number (Or.inl (by decide)) fuel _).trans (number?_fraction stops)

theorem arr (items : Reads (.items js) cs) (begins : Begins cs) (blanks : Blanks gap) :
    Reads (.value (.arr js)) ('[' :: (gap ++ cs)) := by
  intro fuel rest enough _
  simp only [List.length_cons, List.length_append] at enough
  have read := items.items?_eq begins (show 2 * cs.length ≤ fuel by omega) rest
  rw [List.cons_append, List.append_assoc, value?_arr blanks (begins.append rest), read]
  rfl

theorem obj (members : Reads (.members ms) cs) (begins : Begins cs) (blanks : Blanks gap) :
    Reads (.value (.obj ms)) ('\x7b' :: (gap ++ cs)) := by
  intro fuel rest enough _
  simp only [List.length_cons, List.length_append] at enough
  have read := members.members?_eq begins (show 2 * cs.length ≤ fuel by omega) rest
  rw [List.cons_append, List.append_assoc, value?_obj blanks (begins.append rest), read,
    Option.map_some, objectOf_texts]

theorem lastItem (value : Reads (.value j) cs) (begins : Begins cs) (blanks : Blanks gap) :
    Reads (.items [j]) (cs ++ (gap ++ [']'])) := by
  intro fuel rest enough
  simp only [List.length_append, List.length_cons] at enough
  have stops : Stops (gap ++ ']' :: rest) := stops_append blanks (stops_cons (by decide) rest)
  have read := value.value?_eq begins (show 2 * cs.length ≤ fuel by omega) stops
  simp only [List.append_assoc, List.cons_append, List.nil_append]
  rw [items?_value read, skipBlanks_append blanks, skipBlanks_of_not (by decide)]
  rfl

theorem item (value : Reads (.value j) cs) (items : Reads (.items js) more)
    (begins : Begins cs) (next : Begins more) (before : Blanks gap) (behind : Blanks gap') :
    Reads (.items (j :: js)) (cs ++ (gap ++ ',' :: (gap' ++ more))) := by
  intro fuel rest enough
  simp only [List.length_append, List.length_cons] at enough
  have stops : Stops (gap ++ ',' :: (gap' ++ (more ++ rest))) :=
    stops_append before (stops_cons (by decide) _)
  have read := value.value?_eq begins (show 2 * cs.length ≤ fuel by omega) stops
  have readMore := items.items?_eq next (show 2 * more.length ≤ fuel by omega) rest
  have visible := (next.append rest).skipBlanks_eq
  simp only [List.append_assoc, List.cons_append]
  rw [items?_value read, skipBlanks_append before, skipBlanks_of_not (by decide)]
  simp only [skipBlanks_append behind, visible, readMore, Option.bind_some]

theorem lastMember (value : Reads (.value j) cs) (name : SpellsName s ns) (begins : Begins cs)
    (blanks : Blanks gap) : Reads (.members [(s, j)]) (ns ++ (cs ++ (gap ++ ['\x7d']))) := by
  intro fuel rest enough
  simp only [List.length_append, List.length_cons] at enough
  have stops : Stops (gap ++ '\x7d' :: rest) := stops_append blanks (stops_cons (by decide) rest)
  have read := value.value?_eq begins (show 2 * cs.length ≤ fuel by omega) stops
  simp only [List.append_assoc, List.cons_append, List.nil_append]
  rw [members?_name name begins read, skipBlanks_append blanks, skipBlanks_of_not (by decide)]
  rfl

theorem member (value : Reads (.value j) cs) (members : Reads (.members ms) more)
    (name : SpellsName s ns) (begins : Begins cs) (next : Begins more) (before : Blanks gap)
    (behind : Blanks gap') :
    Reads (.members ((s, j) :: ms)) (ns ++ (cs ++ (gap ++ ',' :: (gap' ++ more)))) := by
  intro fuel rest enough
  simp only [List.length_append, List.length_cons] at enough
  have stops : Stops (gap ++ ',' :: (gap' ++ (more ++ rest))) :=
    stops_append before (stops_cons (by decide) _)
  have read := value.value?_eq begins (show 2 * cs.length ≤ fuel by omega) stops
  have readMore := members.members?_eq next (show 2 * more.length ≤ fuel by omega) rest
  have visible := (next.append rest).skipBlanks_eq
  simp only [List.append_assoc, List.cons_append]
  rw [members?_name name begins read, skipBlanks_append before, skipBlanks_of_not (by decide)]
  simp only [skipBlanks_append behind, visible, readMore, Option.bind_some, List.map_cons]

end Reads

/-- Every part of a text is read as what it stands for. -/
theorem Spells.reads {part : Part} {cs : List Char} (spelled : Spells part cs) :
    Reads part cs := by
  induction spelled with
  | null => exact fun fuel rest _ _ => rfl
  | yes => exact fun fuel rest _ _ => rfl
  | no => exact fun fuel rest _ _ => rfl
  | int i => exact .int i
  | foreign => exact .foreign
  | str string => exact fun fuel rest _ _ => value?_string string fuel rest
  | emptyArr blanks =>
    intro fuel rest _ _
    simp [value?, skipBlanks_append blanks, skipBlanks_of_not (c := ']') (by decide)]
  | arr blanks items ih => exact ih.arr items.begins blanks
  | emptyObj blanks =>
    intro fuel rest _ _
    simp [value?, skipBlanks_append blanks, skipBlanks_of_not (c := '\x7d') (by decide)]
  | obj blanks members ih => exact ih.obj members.begins blanks
  | lastItem value blanks ih => exact ih.lastItem value.begins blanks
  | item value before behind items ihValue ihItems =>
    exact ihValue.item ihItems value.begins items.begins before behind
  | lastMember name value blanks ih => exact ih.lastMember name value.begins blanks
  | member name value before behind members ihValue ihMembers =>
    exact ihValue.member ihMembers name value.begins members.begins before behind

/-- A whole text is read as the value that it is a text of. -/
theorem SpelledBy.read?_eq {j : Json} {text : String} (spelled : SpelledBy j text) :
    read? text = some j := by
  obtain ⟨before, value, behind, whole⟩ := spelled
  rename_i gap cs gap'
  have atEnd : Stops [] := fun _ mem => absurd mem (by simp)
  have stops : Stops gap' := List.append_nil gap' ▸ stops_append behind atEnd
  have enough : 2 * cs.length ≤ 2 * text.toList.length + 2 := by
    rw [whole]
    simp only [List.length_append]
    omega
  have read := value.reads.value?_eq value.begins enough stops
  have none : skipBlanks gap' = [] := by
    rw [← List.append_nil gap', skipBlanks_append behind, skipBlanks]
  rw [read?, whole, skipBlanks_append before, (value.begins.append gap').skipBlanks_eq, ← whole,
    read]
  simp [none]

/-- Both surrogates of a character are escaped, with digits of either case. -/
example : read? " [-8, \"\\u0001\\ud83d\\uDE00\" ]\n" = some (arr [int (-8), str "\x01😀"]) := by
  cbv

end Json

end VtableCloud
