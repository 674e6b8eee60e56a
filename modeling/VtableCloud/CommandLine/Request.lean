import VtableCloud.CommandLine.Arguments
import VtableCloud.Layouts.Range

/-!
# What a command line asks for

The first argument names the command. A help flag anywhere behind it asks for help on
that command instead.

* `Request.parse` reads the arguments that are left once the log flags are taken out.
-/

namespace VtableCloud

/-- What to do with a record file. -/
inductive Action where
  | layout (json : Bool)
  | ranges (precision : Precision) (json : Bool)
  | translate (key : SubVtableKey) (offset : Int) (relative json : Bool)
  | dot (root : String)
  deriving DecidableEq, Repr

/-- An action with the record file and the layout options it works on. -/
structure Command where
  path : String
  options : LayoutOptions
  action : Action
  deriving DecidableEq, Repr

namespace Command

def parseLayout (a : CommandArgs) : Except ArgumentError Command := do
  let path ← a.get 0 "records file"
  a.expectAtMost 1
  return ⟨path, a.layoutOptions, .layout a.json⟩

def parseRanges (a : CommandArgs) : Except ArgumentError Command := do
  let path ← a.get 0 "records file"
  a.expectAtMost 1
  return ⟨path, a.layoutOptions, .ranges (if a.precise then .precise else .single) a.json⟩

def parseTranslate (a : CommandArgs) : Except ArgumentError Command := do
  let path ← a.get 0 "records file"
  let className ← a.get 1 "class"
  let order ← a.get 2 "sub-vtable order"
  let offset ← a.get 3 "offset"
  a.expectAtMost 4
  match unsignedNumber? order, signedNumber? offset with
  | none, _ => .error (.orderNotANumber order)
  | some _, none => .error (.offsetNotANumber offset)
  | some order, some offset =>
    return ⟨path, a.layoutOptions, .translate ⟨className, order⟩ offset (!a.absolute) a.json⟩

def parseDot (a : CommandArgs) : Except ArgumentError Command := do
  let path ← a.get 0 "records file"
  let root ← a.get 1 "root class"
  a.expectAtMost 2
  return ⟨path, a.layoutOptions, .dot root⟩

end Command

inductive Request where
  | usage
  | help (topic : String)
  | version
  | unknown (name : String)
  | command (command : Command)
  deriving DecidableEq, Repr

namespace Request

def isHelpFlag (argument : String) : Bool := argument == "--help" || argument == "-h"

/-- What a command name and the arguments behind it ask for. -/
def ofCommand (name : String) (rest : List String) : Except ArgumentError Request :=
  match name with
  | "layout" => do return .command (← Command.parseLayout (← CommandArgs.parse rest))
  | "ranges" => do return .command (← Command.parseRanges (← CommandArgs.parse rest))
  | "translate" => do return .command (← Command.parseTranslate (← CommandArgs.parse rest))
  | "dot" => do return .command (← Command.parseDot (← CommandArgs.parse rest))
  | "help" | "--help" | "-h" =>
    match rest with
    | [] => .ok usage
    | topic :: _ => .ok (help topic)
  | "version" | "--version" | "-V" => .ok version
  | _ => .ok (unknown name)

def parse : List String → Except ArgumentError Request
  | [] => .ok usage
  | name :: rest => if rest.any isHelpFlag then .ok (help name) else ofCommand name rest

end Request

end VtableCloud
