import VtableCloud.Json.Library
import VtableCloud.Json.Printer
import VtableCloud.Json.Reader

/-!
# The library of JSON that is used

A record is an object that gives its fields by name, in any order and beside others, or an
array of its fields in order that may leave out the last ones. A variant is its name, or an object
with one member that is named for it.

* `standardJson`: the library.
-/

namespace VtableCloud

namespace Json

/-- A number that fits an unsigned machine word. -/
def unsigned? : Json → Option Word
  | int i => if fitsUnsigned i then some (Fin.ofNat wordCount i.toNat) else none
  | _ => none

/-- A number that fits a signed machine word. -/
def signed? : Json → Option Int64
  | int i => if fitsSigned i then some (Int64.ofInt i) else none
  | _ => none

def string? : Json → Option String
  | str s => some s
  | _ => none

def bool? : Json → Option Bool
  | bool b => some b
  | _ => none

def list? : Json → Option (List Json)
  | arr items => some items
  | _ => none

/-- A field of a record. A member that is given twice is refused. -/
def field? {α : Type} (names : List String) (name : String) (read? : Json → Option α)
    (default : Option α) : Json → Option α
  | obj members =>
    match members.filter (·.1 == name) with
    | [] => default
    | [(_, j)] => read? j
    | _ => none
  | arr items =>
    if items.length ≤ names.length then
      match items[names.idxOf name]? with
      | some j => read? j
      | none => default
    else
      none
  | _ => none

def variant? : Json → Option (String × Option Json)
  | str name => some (name, none)
  | obj [(name, j)] => some (name, some j)
  | _ => none

/-- A variant with what stands behind it. -/
def ofVariant (name : String) : Option Json → Json
  | none => str name
  | some j => obj [(name, j)]

/-- What is said of a text that is not one value, or one of another form. -/
def complaint (text : String) : String :=
  match read? text with
  | none => "the text is not one JSON value"
  | some _ => "the value does not have the form of a record file"

end Json

def standardJson : JsonLibrary where
  read? := Json.read?
  complaint := Json.complaint
  unsigned? := Json.unsigned?
  signed? := Json.signed?
  string? := Json.string?
  bool? := Json.bool?
  items? := Json.list?
  field? := Json.field?
  variant? := Json.variant?
  unsigned := Json.nat
  signed value := .int value.toInt
  string := .str
  bool := .bool
  items := .arr
  record := .obj
  variant := Json.ofVariant
  compact := Json.compact
  indented := Json.indented

end VtableCloud
