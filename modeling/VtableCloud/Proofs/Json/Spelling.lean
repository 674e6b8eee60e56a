import VtableCloud.Json.Printer
import VtableCloud.Json.Reader

/-!
# The texts of a JSON value

One value has many texts: there may be blanks around every token, and each character of
a string stands for itself or is written as an escape. The grammar is given here without
a reader and without a printer.

* `SpellsChar`: the ways to write one character. One beyond the first 2^16 takes two
  escapes, one for each of its surrogates;
* `Spells`: the texts of a value, and of what follows the opening bracket of an array or
  an object;
* `SpelledBy`: a whole text, with blanks around the value.
-/

namespace VtableCloud

namespace Json

/-- A stretch of blanks. -/
def Blanks (cs : List Char) : Prop := ∀ c ∈ cs, isBlank c = true

theorem blanks_nil : Blanks [] := fun _ mem => absurd mem List.not_mem_nil

/-! ## Strings -/

/-- A hexadecimal digit of either case. -/
inductive SpellsDigit (n : Nat) : Char → Prop
  | lower (bound : n < 16) : SpellsDigit n (hexDigit n)
  | upper (bound : n < 16) : SpellsDigit n (hexDigit n).toUpper

/-- A code value below 2^16 as the escape with its four hexadecimal digits. -/
inductive SpellsUnit (code : Nat) : List Char → Prop
  | digits {a b c d : Char} (first : SpellsDigit (code / 4096) a)
      (second : SpellsDigit (code / 256 % 16) b) (third : SpellsDigit (code / 16 % 16) c)
      (fourth : SpellsDigit (code % 16) d) : SpellsUnit code ['\\', 'u', a, b, c, d]

/-- The escapes of one letter, each with the character that it stands for. -/
def shortEscapes : List (Char × Char) :=
  [('"', '"'), ('\\', '\\'), ('/', '/'), ('b', '\x08'), ('f', '\x0c'), ('n', '\n'), ('r', '\r'),
    ('t', '\t')]

/-- The leading surrogate of a character beyond the first 2^16. -/
def leading (c : Char) : Nat := 0xD800 + (c.toNat - 0x10000) / 0x400

/-- The trailing surrogate of a character beyond the first 2^16. -/
def trailing (c : Char) : Nat := 0xDC00 + (c.toNat - 0x10000) % 0x400

/-- The ways to write a character between the quotes of a string. -/
inductive SpellsChar (c : Char) : List Char → Prop
  | plain (noControl : 0x20 ≤ c.toNat) (noQuote : c ≠ '"') (noBackslash : c ≠ '\\') :
      SpellsChar c [c]
  | short {letter : Char} (listed : (letter, c) ∈ shortEscapes) : SpellsChar c ['\\', letter]
  | unit {cs : List Char} (unit : SpellsUnit c.toNat cs) : SpellsChar c cs
  | surrogates {hi lo : List Char} (beyond : 0x10000 ≤ c.toNat) (first : SpellsUnit (leading c) hi)
      (second : SpellsUnit (trailing c) lo) : SpellsChar c (hi ++ lo)

/-- The ways to write a text between the quotes of a string. -/
inductive SpellsChars : List Char → List Char → Prop
  | nil : SpellsChars [] []
  | cons {c : Char} {text cs rest : List Char} (head : SpellsChar c cs)
      (tail : SpellsChars text rest) : SpellsChars (c :: text) (cs ++ rest)

/-- The ways to write a string, with its quotes. -/
inductive SpellsString (s : String) : List Char → Prop
  | quotes {cs : List Char} (inside : SpellsChars s.toList cs) :
      SpellsString s ('"' :: (cs ++ ['"']))

/-- The ways to write the name of a member, with the colon behind it. -/
inductive SpellsName (s : String) : List Char → Prop
  | colon {cs gap gap' : List Char} (string : SpellsString s cs) (before : Blanks gap)
      (behind : Blanks gap') : SpellsName s (cs ++ (gap ++ ':' :: gap'))

/-! ## Values -/

/-- A value, or what follows the opening bracket of an array or an object that is not
empty. -/
inductive Part where
  | value (j : Json)
  | items (js : List Json)
  | members (ms : List (String × Json))

/-- The texts of a part, with blanks between the tokens. Integers have no leading zeros;
what denotes no JSON value is written as the fraction that the printer writes. -/
inductive Spells : Part → List Char → Prop
  | null : Spells (.value null) "null".toList
  | yes : Spells (.value (bool true)) "true".toList
  | no : Spells (.value (bool false)) "false".toList
  | int (i : Int) : Spells (.value (int i)) (toString i).toList
  | foreign : Spells (.value foreign) "0.5".toList
  | str {s : String} {cs : List Char} (string : SpellsString s cs) : Spells (.value (str s)) cs
  | emptyArr {gap : List Char} (blanks : Blanks gap) :
      Spells (.value (arr [])) ('[' :: (gap ++ [']']))
  | arr {js : List Json} {gap cs : List Char} (blanks : Blanks gap)
      (items : Spells (.items js) cs) : Spells (.value (arr js)) ('[' :: (gap ++ cs))
  | emptyObj {gap : List Char} (blanks : Blanks gap) :
      Spells (.value (obj [])) ('\x7b' :: (gap ++ ['\x7d']))
  | obj {ms : List (String × Json)} {gap cs : List Char} (blanks : Blanks gap)
      (members : Spells (.members ms) cs) : Spells (.value (obj ms)) ('\x7b' :: (gap ++ cs))
  | lastItem {j : Json} {cs gap : List Char} (value : Spells (.value j) cs) (blanks : Blanks gap) :
      Spells (.items [j]) (cs ++ (gap ++ [']']))
  | item {j : Json} {js : List Json} {cs gap gap' rest : List Char}
      (value : Spells (.value j) cs) (before : Blanks gap) (behind : Blanks gap')
      (items : Spells (.items js) rest) :
      Spells (.items (j :: js)) (cs ++ (gap ++ ',' :: (gap' ++ rest)))
  | lastMember {s : String} {j : Json} {ns cs gap : List Char} (name : SpellsName s ns)
      (value : Spells (.value j) cs) (blanks : Blanks gap) :
      Spells (.members [(s, j)]) (ns ++ (cs ++ (gap ++ ['\x7d'])))
  | member {s : String} {j : Json} {ms : List (String × Json)} {ns cs gap gap' rest : List Char}
      (name : SpellsName s ns) (value : Spells (.value j) cs) (before : Blanks gap)
      (behind : Blanks gap') (members : Spells (.members ms) rest) :
      Spells (.members ((s, j) :: ms)) (ns ++ (cs ++ (gap ++ ',' :: (gap' ++ rest))))

/-- A whole text of a value. -/
inductive SpelledBy (j : Json) (text : String) : Prop
  | blanks {gap cs gap' : List Char} (before : Blanks gap) (value : Spells (.value j) cs)
      (behind : Blanks gap') (whole : text.toList = gap ++ (cs ++ gap')) : SpelledBy j text

end Json

end VtableCloud
