import VtableCloud.Json.Basic
import VtableCloud.Log.Level
import VtableCloud.Text.Quoted

/-!
# Log events

An event has a level, a target that names the part of the program it comes from, a
message and named values. It is written as one line of text or as one JSON object.
-/

namespace VtableCloud

inductive FieldValue where
  | number (value : Int)
  | flag (value : Bool)
  /-- A text that is quoted in a line. -/
  | quoted (text : String)
  /-- A text that stands in a line as it is. -/
  | bare (text : String)
  deriving DecidableEq, Repr

namespace FieldValue

def line : FieldValue → String
  | number value => toString value
  | flag value => if value then "true" else "false"
  | quoted text => quoteText text
  | bare text => text

def json : FieldValue → Json
  | number value => .int value
  | flag value => .bool value
  | quoted text | bare text => .str text

end FieldValue

structure Event where
  level : LogLevel
  target : String
  message : String
  fields : List (String × FieldValue)
  deriving DecidableEq, Repr

namespace Event

/-- The level in capitals, at the right end of five columns. -/
def levelColumn (e : Event) : String :=
  let name := e.level.name.toUpper
  String.ofList (List.replicate (5 - name.length) ' ') ++ name

def line (e : Event) : String :=
  let fields := e.fields.map fun (name, value) => s!" {name}={value.line}"
  s!"{e.levelColumn} {e.target}: {e.message}{String.join fields}"

def json (e : Event) : Json :=
  .obj [
    ("level", .str e.level.name.toUpper),
    ("fields", .obj (("message", .str e.message) ::
      e.fields.map fun (name, value) => (name, value.json))),
    ("target", .str e.target)]

end Event

end VtableCloud
