import VtableCloud.Json.Basic

/-!
# Writing JSON

The compact form has no blanks; the indented form puts every item and member on a
line of its own, two blanks further in than its parent, and leaves empty arrays and
objects closed up. Inside strings the quote, the backslash and the control characters
are escaped, and nothing else.
-/

namespace VtableCloud

namespace Json

/-- The lowercase hexadecimal digit of a number below sixteen. -/
def hexDigit (n : Nat) : Char :=
  if n < 10 then Char.ofNat ('0'.toNat + n) else Char.ofNat ('a'.toNat + (n - 10))

/-- One character of a string, as it stands between the quotes. -/
def escapeChar (c : Char) : List Char :=
  if c = '"' then ['\\', '"']
  else if c = '\\' then ['\\', '\\']
  else if c = '\x08' then ['\\', 'b']
  else if c = '\t' then ['\\', 't']
  else if c = '\n' then ['\\', 'n']
  else if c = '\x0c' then ['\\', 'f']
  else if c = '\r' then ['\\', 'r']
  else if c.toNat < 0x20 then
    ['\\', 'u', '0', '0', hexDigit (c.toNat / 16), hexDigit (c.toNat % 16)]
  else [c]

/-- A string with its quotes. -/
def quoted (s : String) : List Char := '"' :: (s.toList.flatMap escapeChar ++ ['"'])

mutual

/-- The compact form. What denotes no JSON value is written as a fraction. -/
def compactChars : Json → List Char
  | null => "null".toList
  | bool true => "true".toList
  | bool false => "false".toList
  | int i => (toString i).toList
  | str s => quoted s
  | arr items => '[' :: (compactItems items ++ [']'])
  | obj members => '\x7b' :: (compactMembers members ++ ['\x7d'])
  | foreign => "0.5".toList

def compactItems : List Json → List Char
  | [] => []
  | [j] => compactChars j
  | j :: rest => compactChars j ++ ',' :: compactItems rest

def compactMembers : List (String × Json) → List Char
  | [] => []
  | [(name, j)] => quoted name ++ ':' :: compactChars j
  | (name, j) :: rest => quoted name ++ ':' :: (compactChars j ++ ',' :: compactMembers rest)

end

def compact (j : Json) : String := String.ofList (compactChars j)

/-- A new line, indented to a depth. -/
def newLine (depth : Nat) : List Char := '\n' :: List.replicate (2 * depth) ' '

mutual

/-- The indented form of a value that stands at a depth. -/
def indentedChars (depth : Nat) : Json → List Char
  | arr [] => ['[', ']']
  | arr items => '[' :: (indentedItems (depth + 1) items ++ newLine depth ++ [']'])
  | obj [] => ['\x7b', '\x7d']
  | obj members => '\x7b' :: (indentedMembers (depth + 1) members ++ newLine depth ++ ['\x7d'])
  | j => compactChars j

def indentedItems (depth : Nat) : List Json → List Char
  | [] => []
  | [j] => newLine depth ++ indentedChars depth j
  | j :: rest => newLine depth ++ indentedChars depth j ++ ',' :: indentedItems depth rest

def indentedMembers (depth : Nat) : List (String × Json) → List Char
  | [] => []
  | [(name, j)] => newLine depth ++ quoted name ++ ':' :: ' ' :: indentedChars depth j
  | (name, j) :: rest =>
    newLine depth ++ quoted name ++ ':' :: ' ' :: indentedChars depth j ++
      ',' :: indentedMembers depth rest

end

def indented (j : Json) : String := String.ofList (indentedChars 0 j)

end Json

end VtableCloud
