import VtableCloud.Text.Decimal

/-!
# Log levels and formats

A level admits all events of its own weight and heavier ones. Levels and formats are
named in any ASCII case.
-/

namespace VtableCloud

inductive LogLevel where
  | off
  | error
  | warn
  | info
  | debug
  | trace
  deriving DecidableEq, Repr, Inhabited

namespace LogLevel

def name : LogLevel → String
  | off => "off"
  | error => "error"
  | warn => "warn"
  | info => "info"
  | debug => "debug"
  | trace => "trace"

/-- The place of a level, from 0 for no events to 5 for all. -/
def rank : LogLevel → Nat
  | off => 0
  | error => 1
  | warn => 2
  | info => 3
  | debug => 4
  | trace => 5

def ofRank? : Nat → Option LogLevel
  | 0 => some off
  | 1 => some error
  | 2 => some warn
  | 3 => some info
  | 4 => some debug
  | 5 => some trace
  | _ => none

/-- A level by name or by rank. No text at all means errors. -/
def standard? (text : String) : Option LogLevel :=
  match text.toLower with
  | "off" => some off
  | "error" | "" => some error
  | "warn" => some warn
  | "info" => some info
  | "debug" => some debug
  | "trace" => some trace
  | other => (unsignedNumber? other).bind ofRank?

/-- A level by another name for it, or as the library of the log reads it. -/
def ofText? (parse? : String → Option LogLevel) (text : String) : Option LogLevel :=
  match text.toLower with
  | "err" => some error
  | "warning" => some warn
  | "verbose" => some trace
  | other => parse? other

/-- Whether events of one level pass when another is set. -/
def admits (set event : LogLevel) : Bool := event.rank ≤ set.rank

end LogLevel

/-- How events are written. -/
inductive LogFormat where
  /-- Text on a terminal, JSON elsewhere. -/
  | auto
  | text
  | json
  deriving DecidableEq, Repr, Inhabited

namespace LogFormat

def name : LogFormat → String
  | auto => "auto"
  | text => "text"
  | json => "json"

def ofText? (value : String) : Option LogFormat :=
  match value.toLower with
  | "auto" => some auto
  | "text" | "plain" => some text
  | "json" => some json
  | _ => none

/-- The format that events are really written in. -/
def resolved (f : LogFormat) (onTerminal : Bool) : LogFormat :=
  match f with
  | auto => if onTerminal then text else json
  | f => f

end LogFormat

end VtableCloud
