import VtableCloud.Proofs.Json.Spelling

/-!
# What is written is a text of the value

* `spelledBy_compact`: the compact form;
* `spelledBy_indented`: the indented form.
-/

namespace VtableCloud

namespace Json

/-! ## Strings -/

/-- The escape of a control character that has no short one. -/
theorem spellsUnit_control {code : Nat} (control : code < 0x20) :
    SpellsUnit code ['\\', 'u', '0', '0', hexDigit (code / 16), hexDigit (code % 16)] := by
  have zero : SpellsDigit 0 '0' := .lower (by decide)
  refine .digits ?_ ?_ ?_ (.lower (by omega))
  · rwa [show code / 4096 = 0 by omega]
  · rwa [show code / 256 % 16 = 0 by omega]
  · rw [show code / 16 % 16 = code / 16 by omega]
    exact .lower (by omega)

theorem spellsChar_escapeChar (c : Char) : SpellsChar c (escapeChar c) := by
  unfold escapeChar
  -- The seven characters that have a short escape, in the order of the definition.
  iterate 7
    split
    · subst_vars
      exact .short (by decide)
  split
  · rename_i control
    exact .unit (spellsUnit_control control)
  · rename_i noQuote noBackslash _ _ _ _ _ noControl
    exact .plain (by omega) noQuote noBackslash

theorem spellsString_quoted (s : String) : SpellsString s (quoted s) := by
  have inside : ∀ text : List Char, SpellsChars text (text.flatMap escapeChar) := by
    intro text
    induction text with
    | nil => exact .nil
    | cons c text ih => exact .cons (spellsChar_escapeChar c) ih
  exact .quotes (inside s.toList)

theorem spellsName_quoted (s : String) {gap : List Char} (blanks : Blanks gap) :
    SpellsName s (quoted s ++ ':' :: gap) :=
  .colon (spellsString_quoted s) blanks_nil blanks

/-! ## The compact form -/

mutual

theorem spells_compactChars : ∀ j : Json, Spells (.value j) (compactChars j)
  | .null => .null
  | .bool true => .yes
  | .bool false => .no
  | .int i => .int i
  | .str s => .str (spellsString_quoted s)
  | .arr items => by
    have text := spells_compactItems items
    cases items with
    | nil => exact .emptyArr blanks_nil
    | cons j js =>
      have text := Spells.arr blanks_nil (text (List.cons_ne_nil j js))
      simpa [compactChars] using text
  | .obj members => by
    have text := spells_compactMembers members
    cases members with
    | nil => exact .emptyObj blanks_nil
    | cons m ms =>
      have text := Spells.obj blanks_nil (text (List.cons_ne_nil m ms))
      simpa [compactChars] using text
  | .foreign => .foreign

theorem spells_compactItems :
    ∀ items : List Json, items ≠ [] → Spells (.items items) (compactItems items ++ [']'])
  | [], nonempty => absurd rfl nonempty
  | [j], _ => .lastItem (spells_compactChars j) blanks_nil
  | j :: k :: js, _ => by
    have items := spells_compactItems (k :: js) (List.cons_ne_nil k js)
    have text := Spells.item (spells_compactChars j) blanks_nil blanks_nil items
    simpa [compactItems] using text

theorem spells_compactMembers :
    ∀ members : List (String × Json), members ≠ [] →
      Spells (.members members) (compactMembers members ++ ['\x7d'])
  | [], nonempty => absurd rfl nonempty
  | [(s, j)], _ => by
    have text :=
      Spells.lastMember (spellsName_quoted s blanks_nil) (spells_compactChars j) blanks_nil
    simpa [compactMembers] using text
  | (s, j) :: m :: ms, _ => by
    have members := spells_compactMembers (m :: ms) (List.cons_ne_nil m ms)
    have text := Spells.member (spellsName_quoted s blanks_nil) (spells_compactChars j) blanks_nil
      blanks_nil members
    simpa [compactMembers] using text

end

theorem spelledBy_compact (j : Json) : SpelledBy j j.compact :=
  .blanks blanks_nil (spells_compactChars j) blanks_nil (by simp [compact])

/-! ## The indented form -/

theorem blanks_newLine (depth : Nat) : Blanks (newLine depth) := by
  intro c mem
  rcases List.mem_cons.mp mem with rfl | mem
  · rfl
  · obtain ⟨-, rfl⟩ := List.mem_replicate.mp mem
    rfl

theorem blanks_space : Blanks [' '] := by
  simp [Blanks, isBlank]

mutual

theorem spells_indentedChars : ∀ (depth : Nat) (j : Json), Spells (.value j) (indentedChars depth j)
  | _, .null => .null
  | _, .bool true => .yes
  | _, .bool false => .no
  | _, .int i => .int i
  | _, .str s => .str (spellsString_quoted s)
  | depth, .arr items => by
    have texts := spells_indentedItems (depth + 1) items
    cases items with
    | nil => exact .emptyArr blanks_nil
    | cons j js =>
      obtain ⟨cs, indented, text⟩ := texts (List.cons_ne_nil j js)
      have text := Spells.arr (blanks_newLine (depth + 1)) (text (blanks_newLine depth))
      simpa [indentedChars, indented] using text
  | depth, .obj members => by
    have texts := spells_indentedMembers (depth + 1) members
    cases members with
    | nil => exact .emptyObj blanks_nil
    | cons m ms =>
      obtain ⟨cs, indented, text⟩ := texts (List.cons_ne_nil m ms)
      have text := Spells.obj (blanks_newLine (depth + 1)) (text (blanks_newLine depth))
      simpa [indentedChars, indented] using text
  | _, .foreign => .foreign

/-- The blanks in front of the first item belong to the opening bracket, those behind the
last one to the closing bracket. -/
theorem spells_indentedItems : ∀ (depth : Nat) (items : List Json), items ≠ [] → ∃ cs,
    indentedItems depth items = newLine depth ++ cs ∧
      ∀ {gap}, Blanks gap → Spells (.items items) (cs ++ (gap ++ [']']))
  | _, [], nonempty => absurd rfl nonempty
  | depth, [j], _ =>
    ⟨indentedChars depth j, rfl, fun blanks => .lastItem (spells_indentedChars depth j) blanks⟩
  | depth, j :: k :: js, _ => by
    obtain ⟨cs, indented, items⟩ := spells_indentedItems depth (k :: js) (List.cons_ne_nil k js)
    refine ⟨indentedChars depth j ++ ',' :: (newLine depth ++ cs), ?_, fun blanks => ?_⟩
    · simp [indentedItems, indented]
    · have text := Spells.item (spells_indentedChars depth j) blanks_nil (blanks_newLine depth)
        (items blanks)
      simpa using text

theorem spells_indentedMembers : ∀ (depth : Nat) (members : List (String × Json)), members ≠ [] →
    ∃ cs, indentedMembers depth members = newLine depth ++ cs ∧
      ∀ {gap}, Blanks gap → Spells (.members members) (cs ++ (gap ++ ['\x7d']))
  | _, [], nonempty => absurd rfl nonempty
  | depth, [(s, j)], _ => by
    refine ⟨quoted s ++ ':' :: ' ' :: indentedChars depth j, ?_, fun blanks => ?_⟩
    · simp [indentedMembers]
    · have text := Spells.lastMember (spellsName_quoted s blanks_space)
        (spells_indentedChars depth j) blanks
      simpa using text
  | depth, (s, j) :: m :: ms, _ => by
    obtain ⟨cs, indented, members⟩ :=
      spells_indentedMembers depth (m :: ms) (List.cons_ne_nil m ms)
    refine ⟨quoted s ++ ':' :: ' ' :: (indentedChars depth j ++ ',' :: (newLine depth ++ cs)), ?_,
      fun blanks => ?_⟩
    · simp [indentedMembers, indented]
    · have text := Spells.member (spellsName_quoted s blanks_space) (spells_indentedChars depth j)
        blanks_nil (blanks_newLine depth) (members blanks)
      simpa using text

end

theorem spelledBy_indented (j : Json) : SpelledBy j j.indented :=
  .blanks blanks_nil (spells_indentedChars 0 j) blanks_nil (by simp [indented])

end Json

end VtableCloud
