import VtableCloud.Json.Library
import VtableCloud.Record.Basic

/-!
# Class records as JSON

A record file is a record with the single field `classes`, an array of class records.
The fields `parents`, `functions`, `elements` and `is_defined` may be left out
and then stand for nothing, nothing, nothing and true. An element is a variant named for its kind.

* `readRecords` reads a record file;
* `recordsText` writes one, with every field.
-/

namespace VtableCloud

/-! ## Reading -/

section Reading

variable (lib : JsonLibrary)

namespace SubVtableKey

def fieldNames : List String := ["class", "order"]

def ofJson? (j : Json) : Option SubVtableKey := do
  return {
    className := ← lib.field? fieldNames "class" lib.string? none j
    order := ← lib.field? fieldNames "order" lib.unsigned? none j }

end SubVtableKey

namespace KeySet

def ofJson? (j : Json) : Option KeySet := (lib.list? (SubVtableKey.ofJson? lib) j).map ofList

end KeySet

namespace FunctionEntry

def fieldNames : List String := ["name", "offset"]

def ofJson? (j : Json) : Option FunctionEntry := do
  return {
    name := ← lib.field? fieldNames "name" lib.string? none j
    offset := ← lib.field? fieldNames "offset" lib.unsigned? none j }

end FunctionEntry

namespace SubVtable

def fieldNames : List String :=
  ["order", "parents", "start", "end", "address_point", "functions"]

def ofJson? (j : Json) : Option SubVtable := do
  return {
    order := ← lib.field? fieldNames "order" lib.unsigned? none j
    parents := ← lib.field? fieldNames "parents" (KeySet.ofJson? lib) (some .empty) j
    start := ← lib.field? fieldNames "start" lib.unsigned? none j
    last := ← lib.field? fieldNames "end" lib.unsigned? none j
    addressPoint := ← lib.field? fieldNames "address_point" lib.unsigned? none j
    functions :=
      ← lib.field? fieldNames "functions" (lib.list? (FunctionEntry.ofJson? lib)) (some []) j }

end SubVtable

namespace Element

def ofJson? (j : Json) : Option Element := do
  match ← lib.variant? j with
  | ("null", none) | ("null", some .null) => return null
  | ("offset", some j) => return offset (← lib.signed? j)
  | ("rtti", some j) => return rtti (← lib.string? j)
  | ("function", some j) => return function (← lib.string? j)
  | _ => none

end Element

namespace ClassRecord

def fieldNames : List String := ["name", "sub_vtables", "elements", "is_defined"]

def ofJson? (j : Json) : Option ClassRecord := do
  return {
    name := ← lib.field? fieldNames "name" lib.string? none j
    subVtables := ← lib.field? fieldNames "sub_vtables" (lib.list? (SubVtable.ofJson? lib)) none j
    elements := ← lib.field? fieldNames "elements" (lib.list? (Element.ofJson? lib)) (some []) j
    isDefined := ← lib.field? fieldNames "is_defined" lib.bool? (some true) j }

end ClassRecord

/-- The records of a record file. -/
def recordsOfJson? (j : Json) : Option (List ClassRecord) :=
  lib.field? ["classes"] "classes" (lib.list? (ClassRecord.ofJson? lib)) none j

/-- The records of the text of a record file, or why there are none. -/
def readRecords (text : String) : Except String (List ClassRecord) :=
  match (lib.read? text).bind (recordsOfJson? lib) with
  | some records => .ok records
  | none => .error s!"invalid records: {lib.complaint text}"

end Reading

/-! ## Writing -/

section Writing

variable (lib : JsonLibrary)

def SubVtableKey.toJson (k : SubVtableKey) : Json :=
  lib.record [("class", lib.string k.className), ("order", lib.unsigned k.order)]

def FunctionEntry.toJson (f : FunctionEntry) : Json :=
  lib.record [("name", lib.string f.name), ("offset", lib.unsigned f.offset)]

def SubVtable.toJson (s : SubVtable) : Json :=
  lib.record [
    ("order", lib.unsigned s.order),
    ("parents", lib.items (s.parents.keys.map (SubVtableKey.toJson lib))),
    ("start", lib.unsigned s.start),
    ("end", lib.unsigned s.last),
    ("address_point", lib.unsigned s.addressPoint),
    ("functions", lib.items (s.functions.map (FunctionEntry.toJson lib)))]

def Element.toJson : Element → Json
  | null => lib.variant "null" none
  | offset value => lib.variant "offset" (some (lib.signed value))
  | rtti symbol => lib.variant "rtti" (some (lib.string symbol))
  | function symbol => lib.variant "function" (some (lib.string symbol))

def ClassRecord.toJson (r : ClassRecord) : Json :=
  lib.record [
    ("name", lib.string r.name),
    ("sub_vtables", lib.items (r.subVtables.map (SubVtable.toJson lib))),
    ("elements", lib.items (r.elements.map (Element.toJson lib))),
    ("is_defined", lib.bool r.isDefined)]

/-- The text of a record file, with every field written out. -/
def recordsText (records : List ClassRecord) : String :=
  lib.compact (lib.record [("classes", lib.items (records.map (ClassRecord.toJson lib)))])

end Writing

end VtableCloud
