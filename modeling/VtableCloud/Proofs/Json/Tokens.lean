import VtableCloud.Proofs.Json.Spelling

/-!
# Reading the tokens of a text

Strings and numbers are read as what they stand for, whatever the spelling of the characters
of a string, and blanks are skipped.

* `SpellsChar.reads`: one character of a string, read as one or two code values that
  are paired again, and `SpellsString.reads`: the whole string;
* `Begins`, `Stops`: what blanks are skipped up to, and what a number is read up to;
* `number?_int`: an integer of any size.
-/

namespace VtableCloud

namespace Json

/-! ## Strings -/

theorem hexValue?_hexDigit : ∀ n < 16, hexValue? (hexDigit n) = some n := by
  decide

theorem hexValue?_upper : ∀ n < 16, hexValue? (hexDigit n).toUpper = some n := by
  decide

theorem SpellsDigit.hexValue?_eq {n : Nat} {d : Char} (digit : SpellsDigit n d) :
    hexValue? d = some n := by
  cases digit with
  | lower bound => exact hexValue?_hexDigit n bound
  | upper bound => exact hexValue?_upper n bound

/-- An escape of four digits is read as its code value. -/
theorem SpellsUnit.codes?_append {code : Nat} {cs : List Char} (unit : SpellsUnit code cs)
    (rest : List Char) :
    codes? (cs ++ rest) = (codes? rest).map fun read => (code :: read.1, read.2) := by
  obtain ⟨first, second, third, fourth⟩ := unit
  have value : ((code / 4096 * 16 + code / 256 % 16) * 16 + code / 16 % 16) * 16 + code % 16
      = code := by omega
  simp only [List.cons_append, List.nil_append, codes?, hex4?, first.hexValue?_eq,
    second.hexValue?_eq, third.hexValue?_eq, fourth.hexValue?_eq]
  cases codes? rest with
  | none => simp
  | some read => simp [value]

theorem codes?_quote (rest : List Char) : codes? ('"' :: rest) = some ([], rest) := by
  rw [codes?.eq_def]
  rfl

theorem codes?_plain {c : Char} (noControl : 0x20 ≤ c.toNat) (noQuote : c ≠ '"')
    (noBackslash : c ≠ '\\') (rest : List Char) :
    codes? (c :: rest) = (codes? rest).map fun read => (c.toNat :: read.1, read.2) := by
  have visible : ¬ c.toNat < 0x20 := by omega
  rw [codes?.eq_def]
  simp only [noQuote, noBackslash, visible, if_false]
  cases codes? rest <;> rfl

theorem simpleEscape?_eq {letter c : Char} (listed : (letter, c) ∈ shortEscapes) :
    letter ≠ 'u' ∧ simpleEscape? letter = some c := by
  revert letter c
  simp only [shortEscapes, List.mem_cons, Prod.mk.injEq, List.not_mem_nil, or_false]
  rintro letter c (⟨rfl, rfl⟩ | ⟨rfl, rfl⟩ | ⟨rfl, rfl⟩ | ⟨rfl, rfl⟩ | ⟨rfl, rfl⟩ | ⟨rfl, rfl⟩ |
    ⟨rfl, rfl⟩ | ⟨rfl, rfl⟩) <;> decide

theorem codes?_short {letter c : Char} (listed : (letter, c) ∈ shortEscapes) (rest : List Char) :
    codes? ('\\' :: letter :: rest)
      = (codes? rest).map fun read => (c.toNat :: read.1, read.2) := by
  obtain ⟨noUnit, escape⟩ := simpleEscape?_eq listed
  rw [codes?.eq_3 _ _ _ fun _ _ _ _ _ eq => absurd eq noUnit, escape]
  cases codes? rest <;> rfl

/-- No character is a surrogate. -/
theorem not_surrogate (c : Char) : isLeading c.toNat = false ∧ isTrailing c.toNat = false := by
  have valid : c.toNat < 0xD800 ∨ 0xDFFF < c.toNat := by
    rcases c.valid with low | high
    · exact Or.inl low
    · exact Or.inr high.1
  simp only [isLeading, isTrailing, Bool.and_eq_false_imp, decide_eq_true_eq,
    decide_eq_false_iff_not]
  omega

theorem pairSurrogates?_char (c : Char) (codes : List Nat) :
    pairSurrogates? (c.toNat :: codes) = (pairSurrogates? codes).map (c :: ·) := by
  obtain ⟨notLeading, notTrailing⟩ := not_surrogate c
  cases codes with
  | nil => simp [pairSurrogates?, notLeading, notTrailing]
  | cons code codes => simp [pairSurrogates?, notLeading, notTrailing]

/-- The two surrogates of a character are paired to the character. -/
theorem pairSurrogates?_surrogates {c : Char} (beyond : 0x10000 ≤ c.toNat) (codes : List Nat) :
    pairSurrogates? (leading c :: trailing c :: codes) = (pairSurrogates? codes).map (c :: ·) := by
  have bound : c.toNat < 0x110000 := by
    rcases c.valid with low | high
    · exact Nat.lt_trans low (by decide)
    · exact high.2
  have first : isLeading (leading c) = true := by
    unfold isLeading leading
    simp only [Bool.and_eq_true, decide_eq_true_eq]
    omega
  have second : isTrailing (trailing c) = true := by
    unfold isTrailing trailing
    simp only [Bool.and_eq_true, decide_eq_true_eq]
    omega
  have joined : 0x10000 + (leading c - 0xD800) * 0x400 + (trailing c - 0xDC00) = c.toNat := by
    simp only [leading, trailing]
    omega
  simp [pairSurrogates?, first, second, joined]

/-- A character is read as code values that pair to it, in front of whatever follows. -/
theorem SpellsChar.reads {c : Char} {cs : List Char} (spelled : SpellsChar c cs) :
    ∃ units,
      (∀ rest, codes? (cs ++ rest) = (codes? rest).map fun read => (units ++ read.1, read.2)) ∧
      ∀ codes, pairSurrogates? (units ++ codes) = (pairSurrogates? codes).map (c :: ·) := by
  cases spelled with
  | plain noControl noQuote noBackslash =>
    exact ⟨[c.toNat], codes?_plain noControl noQuote noBackslash, pairSurrogates?_char c⟩
  | short listed => exact ⟨[c.toNat], codes?_short listed, pairSurrogates?_char c⟩
  | unit unit => exact ⟨[c.toNat], unit.codes?_append, pairSurrogates?_char c⟩
  | surrogates beyond first second =>
    refine ⟨[leading c, trailing c], fun rest => ?_, pairSurrogates?_surrogates beyond⟩
    rw [List.append_assoc, first.codes?_append, second.codes?_append, Option.map_map]
    rfl

/-- The inside of a string is read up to its closing quote. -/
theorem SpellsChars.reads {text cs : List Char} (spelled : SpellsChars text cs) :
    ∃ units, (∀ rest, codes? (cs ++ '"' :: rest) = some (units, rest)) ∧
      pairSurrogates? units = some text := by
  induction spelled with
  | nil => exact ⟨[], codes?_quote, rfl⟩
  | cons head _ ih =>
    obtain ⟨first, readFirst, pairFirst⟩ := head.reads
    obtain ⟨units, readRest, pairRest⟩ := ih
    refine ⟨first ++ units, fun rest => ?_, ?_⟩
    · rw [List.append_assoc, readFirst, readRest, Option.map_some]
    · rw [pairFirst, pairRest, Option.map_some]

/-- A string is read as its text. -/
theorem SpellsString.reads {s : String} {cs : List Char} (spelled : SpellsString s cs) :
    ∃ inside units, cs = '"' :: inside ∧ text? units = some s ∧
      ∀ rest, codes? (inside ++ rest) = some (units, rest) := by
  obtain ⟨spelled⟩ := spelled
  rename_i cs
  obtain ⟨units, read, paired⟩ := spelled.reads
  refine ⟨cs ++ ['"'], units, rfl, ?_, fun rest => ?_⟩
  · rw [text?, paired, Option.map_some, String.ofList_toList]
  · rw [List.append_assoc]
    exact read rest

/-! ## Blanks -/

theorem skipBlanks_append {gap : List Char} (blanks : Blanks gap) (rest : List Char) :
    skipBlanks (gap ++ rest) = skipBlanks rest := by
  induction gap with
  | nil => rfl
  | cons c gap ih =>
    obtain ⟨blank, blanks⟩ := List.forall_mem_cons.mp blanks
    rw [List.cons_append, skipBlanks, if_pos blank, ih blanks]

theorem skipBlanks_of_not {c : Char} (visible : isBlank c = false) (rest : List Char) :
    skipBlanks (c :: rest) = c :: rest := by
  simp [skipBlanks, visible]

/-- The first character is no blank and closes neither an array nor an object. -/
def Begins (cs : List Char) : Prop :=
  ∃ c rest, cs = c :: rest ∧ isBlank c = false ∧ c ≠ ']' ∧ c ≠ '\x7d'

theorem Begins.append {cs : List Char} (begins : Begins cs) (more : List Char) :
    Begins (cs ++ more) := by
  obtain ⟨c, rest, rfl, visible⟩ := begins
  exact ⟨c, rest ++ more, rfl, visible⟩

theorem Begins.skipBlanks_eq {cs : List Char} (begins : Begins cs) : skipBlanks cs = cs := by
  obtain ⟨c, rest, rfl, visible, -, -⟩ := begins
  exact skipBlanks_of_not visible rest

theorem Begins.length_pos {cs : List Char} (begins : Begins cs) : 0 < cs.length := by
  obtain ⟨c, rest, rfl, -⟩ := begins
  exact Nat.succ_pos _

/-! ## Numbers -/

/-- What stands behind a value does not continue a number. -/
def Stops (cs : List Char) : Prop :=
  ∀ c ∈ cs.head?, isDigit c = false ∧ c ≠ '.' ∧ c ≠ 'e' ∧ c ≠ 'E'

theorem stops_cons {c : Char} (mem : c ∈ [' ', '\t', '\n', '\r', ',', ']', '\x7d'])
    (cs : List Char) : Stops (c :: cs) := by
  intro d isHead
  obtain rfl : c = d := by simpa using isHead
  simp only [List.mem_cons, List.not_mem_nil, or_false] at mem
  rcases mem with rfl | rfl | rfl | rfl | rfl | rfl | rfl <;> decide

theorem stops_append {gap rest : List Char} (blanks : Blanks gap) (stops : Stops rest) :
    Stops (gap ++ rest) := by
  cases gap with
  | nil => exact stops
  | cons c gap =>
    have blank := blanks c List.mem_cons_self
    simp only [isBlank, Bool.or_eq_true, beq_iff_eq, or_assoc] at blank
    refine stops_cons ?_ (gap ++ rest)
    rcases blank with rfl | rfl | rfl | rfl <;> decide

theorem isDigit_eq (c : Char) : isDigit c = c.isDigit := by
  simp [isDigit, Char.isDigit, Char.le_def]

theorem isDigit_of_mem_toDigits {n : Nat} {c : Char} (mem : c ∈ Nat.toDigits 10 n) :
    isDigit c = true := by
  rw [isDigit_eq]
  exact Nat.isDigit_of_mem_toDigits (by decide) (by decide) mem

theorem digitsValue_toDigits (n : Nat) : digitsValue (Nat.toDigits 10 n) = n :=
  Nat.ofDigitChars_ten_toDigits

/-- Only zero is written with a leading zero. -/
theorem head?_toDigits {n : Nat} (pos : 0 < n) : (Nat.toDigits 10 n).head? ≠ some '0' := by
  induction n using Nat.strongRecOn with
  | ind n ih =>
    by_cases small : n < 10
    · rw [Nat.toDigits_of_lt_base small]
      have digits : ∀ n < 10, 0 < n → [n.digitChar].head? ≠ some '0' := by decide
      exact digits n small pos
    · rw [Nat.toDigits_of_base_le (by decide) (by omega), List.head?_append]
      have front := ih (n / 10) (by omega) (by omega)
      cases first : Nat.toDigits 10 (n / 10) with
      | nil => exact absurd first Nat.toDigits_ne_nil
      | cons d ds =>
        rw [first] at front
        exact front

theorem digits?_append {ds rest : List Char} (nonempty : ds ≠ [])
    (digits : ∀ c ∈ ds, isDigit c = true) (stops : Stops rest) :
    digits? (ds ++ rest) = some (ds, rest) := by
  have behind : rest.takeWhile isDigit = [] ∧ rest.dropWhile isDigit = rest := by
    cases rest with
    | nil => exact ⟨rfl, rfl⟩
    | cons c rest => simp [(stops c rfl).1]
  rw [digits?, List.takeWhile_append_of_pos digits, List.dropWhile_append_of_pos digits,
    behind.1, behind.2, List.append_nil]
  cases ds with
  | nil => exact absurd rfl nonempty
  | cons d ds => rfl

theorem fraction?_stops {rest : List Char} (stops : Stops rest) :
    fraction? rest = some (false, rest) := by
  unfold fraction?
  split
  · exact absurd rfl (stops '.' rfl).2.1
  · rfl

theorem exponent?_stops {rest : List Char} (stops : Stops rest) :
    exponent? rest = some (false, rest) := by
  cases rest with
  | nil => rfl
  | cons c rest => simp [exponent?, (stops c rfl).2.2]

/-- The digits of a number are read as the number. Behind a sign it is not zero. -/
theorem magnitude?_toDigits {negative : Bool} {n : Nat} (signed : negative = true → 0 < n)
    {rest : List Char} (stops : Stops rest) :
    magnitude? negative (Nat.toDigits 10 n ++ rest)
      = some (int (if negative then -(n : Int) else n), rest) := by
  have read := digits?_append Nat.toDigits_ne_nil (fun _ => isDigit_of_mem_toDigits (n := n)) stops
  have alone : ¬ ((Nat.toDigits 10 n).head? = some '0' ∧ 1 < (Nat.toDigits 10 n).length) := by
    rintro ⟨zero, long⟩
    rcases Nat.eq_zero_or_pos n with rfl | pos
    · exact absurd long (by decide)
    · exact head?_toDigits pos zero
  simp only [magnitude?, read, alone, fraction?_stops stops, exponent?_stops stops,
    digitsValue_toDigits, Option.bind_eq_bind, Option.bind_some, if_false, Bool.false_eq_true,
    or_self]
  cases negative with
  | false => rfl
  | true => simp [Nat.pos_iff_ne_zero.mp (signed rfl)]

theorem toList_ofNat (n : Nat) : (toString (Int.ofNat n)).toList = Nat.toDigits 10 n :=
  Nat.toList_repr

theorem toList_negSucc (n : Nat) :
    (toString (Int.negSucc n)).toList = '-' :: Nat.toDigits 10 (n + 1) := by
  simp only [toString, Int.repr]
  rw [String.toList_append, Nat.toList_repr]
  rfl

theorem toDigits_begins (n : Nat) :
    ∃ d ds, Nat.toDigits 10 n = d :: ds ∧ isDigit d = true := by
  cases written : Nat.toDigits 10 n with
  | nil => exact absurd written Nat.toDigits_ne_nil
  | cons d ds => exact ⟨d, ds, rfl, isDigit_of_mem_toDigits (written ▸ List.mem_cons_self)⟩

/-- The written form of an integer begins with a digit or a sign. -/
theorem int_begins (i : Int) :
    ∃ c cs, (toString i).toList = c :: cs ∧ (isDigit c = true ∨ c = '-') := by
  cases i with
  | ofNat n =>
    obtain ⟨d, ds, written, digit⟩ := toDigits_begins n
    exact ⟨d, ds, (toList_ofNat n).trans written, Or.inl digit⟩
  | negSucc n => exact ⟨'-', _, toList_negSucc n, Or.inr rfl⟩

/-- An integer is read exactly, whatever its size. -/
theorem number?_int (i : Int) {rest : List Char} (stops : Stops rest) :
    number? ((toString i).toList ++ rest) = some (int i, rest) := by
  cases i with
  | ofNat n =>
    have read : magnitude? false (Nat.toDigits 10 n ++ rest) = some (int n, rest) :=
      magnitude?_toDigits (fun signed => absurd signed Bool.false_ne_true) stops
    obtain ⟨d, ds, written, digit⟩ := toDigits_begins n
    rw [toList_ofNat]
    rw [written] at read ⊢
    rw [List.cons_append, number?.eq_2]
    · exact read
    · intro rest sign
      obtain ⟨rfl, -⟩ := List.cons.inj sign
      exact absurd digit (by decide)
  | negSucc n =>
    rw [toList_negSucc]
    exact magnitude?_toDigits (fun _ => Nat.succ_pos n) stops

/-- The fraction that stands for what is no value is read as no value. -/
theorem number?_fraction {rest : List Char} (stops : Stops rest) :
    number? ("0.5".toList ++ rest) = some (foreign, rest) := by
  have whole : digits? ('0' :: '.' :: '5' :: rest) = some (['0'], '.' :: '5' :: rest) := rfl
  have part : digits? (['5'] ++ rest) = some (['5'], rest) :=
    digits?_append (List.cons_ne_nil '5' [])
      (fun c mem => by obtain rfl := List.mem_singleton.mp mem; rfl) stops
  rw [List.cons_append, List.nil_append] at part
  show magnitude? false ('0' :: '.' :: '5' :: rest) = some (foreign, rest)
  simp [magnitude?, whole, fraction?, part, exponent?_stops stops]

end Json

end VtableCloud
