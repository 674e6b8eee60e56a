import VtableCloud.Word

/-!
# Decimal numbers in arguments

A number is one or more of the digits 0 to 9 behind an optional sign, and has to fit a
machine word. Leading zeros are fine. An unsigned number takes only the sign `+`.
-/

namespace VtableCloud

def isDigit (c : Char) : Bool := '0' ≤ c && c ≤ '9'

/-- The value of a run of digits, most significant first. -/
def digitsValue (cs : List Char) : Nat :=
  cs.foldl (fun n c => 10 * n + (c.toNat - '0'.toNat)) 0

/-- The value of a text that is all digits and not empty. -/
def digitsOnly? (cs : List Char) : Option Nat :=
  if cs ≠ [] ∧ cs.all isDigit then some (digitsValue cs) else none

/-- A number below 2^64. -/
def unsignedNumber? (text : String) : Option Nat :=
  let value := match text.toList with
    | '+' :: digits => digitsOnly? digits
    | digits => digitsOnly? digits
  value.filter fun n => fitsUnsigned n

/-- A number from -2^63 to 2^63 - 1. -/
def signedNumber? (text : String) : Option Int :=
  let value : Option Int := match text.toList with
    | '+' :: digits => (digitsOnly? digits).map fun n => (n : Int)
    | '-' :: digits => (digitsOnly? digits).map fun n => -(n : Int)
    | digits => (digitsOnly? digits).map fun n => (n : Int)
  value.filter fitsSigned

end VtableCloud
