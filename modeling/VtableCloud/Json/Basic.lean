/-!
# JSON values

The values that records are read from and reports are written to. Numbers are
integers of any size. Well-formed text can also denote something that is no value
of this kind, such as a fraction or a string with an unpaired surrogate; it is read
as `Json.foreign`, which no field accepts.
-/

namespace VtableCloud

inductive Json where
  | null
  | bool (value : Bool)
  | int (value : Int)
  | str (value : String)
  | arr (items : List Json)
  | obj (members : List (String × Json))
  /-- Well-formed text that denotes no other value of this type. -/
  | foreign
  deriving Repr, Inhabited

def Json.nat (n : Nat) : Json := .int n

end VtableCloud
