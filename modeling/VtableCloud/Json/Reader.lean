import VtableCloud.Json.Basic
import VtableCloud.Text.Decimal

/-!
# Reading JSON

A text is read if it is one JSON value with blanks around it. Integers are read
exactly, whatever their size; fractions, exponents and `-0` are read as
`Json.foreign`. Strings are first read as code values, because one character may be
written as two escapes, and surrogates are paired afterwards.

The readers that call each other spend one unit of fuel per call. A call is entered
at most twice for each character, so twice the length of the text is enough.
-/

namespace VtableCloud

namespace Json

/-- The blanks of JSON: space, tab, line feed and carriage return. -/
def isBlank (c : Char) : Bool := c == ' ' || c == '\t' || c == '\n' || c == '\r'

def skipBlanks : List Char → List Char
  | [] => []
  | c :: rest => if isBlank c then skipBlanks rest else c :: rest

/-- What follows an expected word. -/
def afterWord? : List Char → List Char → Option (List Char)
  | [], rest => some rest
  | _ :: _, [] => none
  | w :: word, c :: rest => if w = c then afterWord? word rest else none

/-! ## Numbers -/

/-- A run of at least one digit, and what follows it. -/
def digits? (cs : List Char) : Option (List Char × List Char) :=
  match cs.takeWhile isDigit, cs.dropWhile isDigit with
  | [], _ => none
  | ds, rest => some (ds, rest)

/-- Skip a fraction, if there is one. Also tells whether there is. -/
def fraction? : List Char → Option (Bool × List Char)
  | '.' :: rest => (digits? rest).map fun (_, rest) => (true, rest)
  | rest => some (false, rest)

/-- Skip an exponent, if there is one. Also tells whether there is. -/
def exponent? : List Char → Option (Bool × List Char)
  | c :: rest =>
    if c = 'e' ∨ c = 'E' then
      match rest with
      | '+' :: rest | '-' :: rest => (digits? rest).map fun (_, rest) => (true, rest)
      | rest => (digits? rest).map fun (_, rest) => (true, rest)
    else some (false, c :: rest)
  | [] => some (false, [])

/-- A number without its sign. A leading zero stands alone. -/
def magnitude? (negative : Bool) (cs : List Char) : Option (Json × List Char) := do
  let (ds, rest) ← digits? cs
  if ds.head? = some '0' ∧ 1 < ds.length then
    none
  let (fractional, rest) ← fraction? rest
  let (scaled, rest) ← exponent? rest
  if fractional ∨ scaled then
    some (foreign, rest)
  else if negative then
    some (if digitsValue ds = 0 then foreign else int (-(digitsValue ds : Int)), rest)
  else
    some (int (digitsValue ds), rest)

def number? : List Char → Option (Json × List Char)
  | '-' :: rest => magnitude? true rest
  | rest => magnitude? false rest

/-! ## Strings -/

def hexValue? (c : Char) : Option Nat :=
  if '0' ≤ c ∧ c ≤ '9' then some (c.toNat - '0'.toNat)
  else if 'a' ≤ c ∧ c ≤ 'f' then some (c.toNat - 'a'.toNat + 10)
  else if 'A' ≤ c ∧ c ≤ 'F' then some (c.toNat - 'A'.toNat + 10)
  else none

/-- The value of four hexadecimal digits. -/
def hex4? (a b c d : Char) : Option Nat := do
  let a ← hexValue? a
  let b ← hexValue? b
  let c ← hexValue? c
  let d ← hexValue? d
  return ((a * 16 + b) * 16 + c) * 16 + d

/-- The character that an escape of one letter stands for. -/
def simpleEscape? (c : Char) : Option Char :=
  if c = '"' ∨ c = '\\' ∨ c = '/' then some c
  else if c = 'b' then some '\x08'
  else if c = 'f' then some '\x0c'
  else if c = 'n' then some '\n'
  else if c = 'r' then some '\r'
  else if c = 't' then some '\t'
  else none

/-- The code values of a string up to its closing quote, and what follows the quote. -/
def codes? : List Char → Option (List Nat × List Char)
  | [] => none
  | c :: rest =>
    if c = '"' then
      some ([], rest)
    else if c = '\\' then
      match rest with
      | 'u' :: h₁ :: h₂ :: h₃ :: h₄ :: rest => do
        let code ← hex4? h₁ h₂ h₃ h₄
        let (codes, rest) ← codes? rest
        return (code :: codes, rest)
      | e :: rest => do
        let c ← simpleEscape? e
        let (codes, rest) ← codes? rest
        return (c.toNat :: codes, rest)
      | [] => none
    else if c.toNat < 0x20 then
      none
    else do
      let (codes, rest) ← codes? rest
      return (c.toNat :: codes, rest)

def isLeading (code : Nat) : Bool := 0xD800 ≤ code && code ≤ 0xDBFF

def isTrailing (code : Nat) : Bool := 0xDC00 ≤ code && code ≤ 0xDFFF

/-- Join each leading surrogate with the trailing one after it. A surrogate that stands
alone belongs to no text. -/
def pairSurrogates? : List Nat → Option (List Char)
  | [] => some []
  | hi :: lo :: rest =>
    if isLeading hi then
      if isTrailing lo then
        (Char.ofNat (0x10000 + (hi - 0xD800) * 0x400 + (lo - 0xDC00)) :: ·)
          <$> pairSurrogates? rest
      else none
    else if isTrailing hi then none
    else (Char.ofNat hi :: ·) <$> pairSurrogates? (lo :: rest)
  | [code] => if isLeading code ∨ isTrailing code then none else some [Char.ofNat code]

/-- The text of code values, if they are text. -/
def text? (codes : List Nat) : Option String := (pairSurrogates? codes).map String.ofList

/-! ## Values -/

/-- The value of an object whose names and values were read. A name that is no text
makes it foreign. -/
def objectOf (members : List (Option String × Json)) : Json :=
  match members.mapM fun (name, j) => name.map (·, j) with
  | some members => obj members
  | none => foreign

mutual

/-- A value at the start of the text, and what follows it. -/
def value? : Nat → List Char → Option (Json × List Char)
  | 0, _ => none
  | fuel + 1, cs =>
    match cs with
    | 'n' :: _ => (afterWord? "null".toList cs).map (null, ·)
    | 't' :: _ => (afterWord? "true".toList cs).map (bool true, ·)
    | 'f' :: _ => (afterWord? "false".toList cs).map (bool false, ·)
    | '"' :: rest => do
      let (codes, rest) ← codes? rest
      return ((text? codes).elim foreign str, rest)
    | '[' :: rest =>
      match skipBlanks rest with
      | ']' :: rest => some (arr [], rest)
      | rest => (items? fuel rest).map fun (items, rest) => (arr items, rest)
    | '\x7b' :: rest =>
      match skipBlanks rest with
      | '\x7d' :: rest => some (obj [], rest)
      | rest => (members? fuel rest).map fun (members, rest) => (objectOf members, rest)
    | cs => number? cs

/-- The items of an array from the first character of an item on. -/
def items? : Nat → List Char → Option (List Json × List Char)
  | 0, _ => none
  | fuel + 1, cs => do
    let (j, rest) ← value? fuel cs
    match skipBlanks rest with
    | ']' :: rest => some ([j], rest)
    | ',' :: rest =>
      let (items, rest) ← items? fuel (skipBlanks rest)
      return (j :: items, rest)
    | _ => none

/-- The members of an object from the first character of a name on. -/
def members? : Nat → List Char → Option (List (Option String × Json) × List Char)
  | 0, _ => none
  | fuel + 1, cs =>
    match cs with
    | '"' :: rest => do
      let (codes, rest) ← codes? rest
      match skipBlanks rest with
      | ':' :: rest =>
        let (j, rest) ← value? fuel (skipBlanks rest)
        match skipBlanks rest with
        | '\x7d' :: rest => some ([(text? codes, j)], rest)
        | ',' :: rest =>
          let (members, rest) ← members? fuel (skipBlanks rest)
          return ((text? codes, j) :: members, rest)
        | _ => none
      | _ => none
    | _ => none

end

/-- The value that a whole text denotes. -/
def read? (text : String) : Option Json :=
  match value? (2 * text.toList.length + 2) (skipBlanks text.toList) with
  | some (j, rest) => if skipBlanks rest = [] then some j else none
  | none => none

end Json

end VtableCloud
