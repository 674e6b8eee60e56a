/-!
# Styled terminal text

A style is a list of display codes, written in front of a text and taken back behind
it. A text that takes back a style itself gets this one again afterwards.
-/

namespace VtableCloud

/-- Display codes in the order in which they are written. -/
structure Style where
  codes : List Nat
  deriving DecidableEq, Repr

namespace Style

def bold : Style := ⟨[1]⟩
def dimmed : Style := ⟨[2]⟩
def underlined : Style := ⟨[4]⟩
def red : Style := ⟨[31]⟩
def green : Style := ⟨[32]⟩
def yellow : Style := ⟨[33]⟩
def cyan : Style := ⟨[36]⟩

/-- The same style in bold. -/
def inBold (s : Style) : Style := ⟨1 :: s.codes⟩

/-- What takes all styles back. -/
def reset : List Char := "\x1b[0m".toList

/-- What begins a style. -/
def opening (s : Style) : List Char :=
  "\x1b[".toList ++ (";".intercalate (s.codes.map toString)).toList ++ ['m']

/-- Begin a style again wherever the text takes styles back. -/
def reopened (s : Style) : List Char → List Char
  | '\x1b' :: '[' :: '0' :: 'm' :: rest => reset ++ s.opening ++ s.reopened rest
  | c :: rest => c :: s.reopened rest
  | [] => []

/-- A text in a style, or plain where there is no colour. -/
def paint (s : Style) (color : Bool) (text : String) : String :=
  if color then String.ofList (s.opening ++ s.reopened text.toList ++ reset) else text

end Style

end VtableCloud
