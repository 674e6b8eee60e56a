import VtableCloud.Json.Basic
import VtableCloud.Word

/-!
# What is asked of a library of JSON

The program reads and writes JSON with a library. The readers and writers of its own types are
composed of those of the library, as the declarations of the types say.

* `JsonLibrary` names the readers and writers that are taken from the library;
* `JsonLibrary.list?` reads the items of an array one by one.
-/

namespace VtableCloud

/-- The readers and writers of a library. A reader gives nothing for what has not the form that it
reads. -/
structure JsonLibrary where
  /-- The value that a whole text denotes. -/
  read? : String → Option Json
  /-- What is said of a text that cannot be read. -/
  complaint : String → String
  unsigned? : Json → Option Word
  signed? : Json → Option Int64
  string? : Json → Option String
  bool? : Json → Option Bool
  items? : Json → Option (List Json)
  /-- Read a field of a record, given the names of all its fields. A field that is left out stands
  for its default, if it has one. -/
  field? : {α : Type} → List String → String → (Json → Option α) → Option α → Json → Option α
  /-- The name of a variant and what stands behind it, if anything does. -/
  variant? : Json → Option (String × Option Json)
  unsigned : Nat → Json
  signed : Int64 → Json
  string : String → Json
  bool : Bool → Json
  items : List Json → Json
  /-- A record with all its fields. -/
  record : List (String × Json) → Json
  variant : String → Option Json → Json
  /-- The text of a value without blanks. -/
  compact : Json → String
  /-- The text of a value with each item and member on a line of its own. -/
  indented : Json → String

/-- Every item of an array, read by `read?`. -/
def JsonLibrary.list? (lib : JsonLibrary) {α : Type} (read? : Json → Option α) (j : Json) :
    Option (List α) := do
  (← lib.items? j).mapM read?

end VtableCloud
