import VtableCloud.CommandLine.Help
import VtableCloud.CommandLine.LogFlags
import VtableCloud.CommandLine.Notices
import VtableCloud.CommandLine.Report
import VtableCloud.CommandLine.Request
import VtableCloud.Files.Error
import VtableCloud.Hierarchy.Graphviz
import VtableCloud.Layouts.Index

/-!
# Running a command line

A run is a function of the libraries, the arguments, the surroundings and the record file that
the arguments name.

* `Invocation.ofArguments` says what is to be done, and `path?` which file is needed;
* `Invocation.outcome` does it.
-/

namespace VtableCloud

/-- What is taken from libraries: reading and writing JSON, and the names of log levels. -/
structure Libraries where
  json : JsonLibrary
  level? : String → Option LogLevel

/-- What a run can see of its surroundings. -/
structure Surroundings where
  color : Bool := false
  logFormat : Option String := none
  logLevel : Option String := none
  logOnTerminal : Bool := false
  deriving DecidableEq, Repr

/-- What a run leaves behind: its exit code, its output, its error text, and its log in
the format in which it is to be written. -/
structure Outcome where
  code : Nat := 0
  output : String := ""
  errors : String := ""
  events : List Event := []
  logFormat : LogFormat := .auto
  deriving DecidableEq, Repr

/-- Why a run comes to nothing: an error to be reported, or a fault, which stops the program
where it stands. -/
inductive Failure where
  | error (message : String)
  | fault (cause : Fault)
  deriving DecidableEq, Repr

def Failure.ofLayoutError : LayoutError → Failure
  | .fault cause => fault cause
  | e => error e.message

/-- Steps that log events and may fail. Events logged before a failure stay. -/
abbrev Logged := ExceptT Failure (StateM (List Event))

namespace Logged

def log (events : List Event) : Logged Unit := modify (· ++ events)

/-- Go on with a result or fail with an error. -/
def lift {ε α : Type} (failure : ε → Failure) : Except ε α → Logged α
  | .ok a => pure a
  | .error e => throw (failure e)

/-- Go on with a result or fail with the message of an error. -/
def report {ε α : Type} (message : ε → String) : Except ε α → Logged α :=
  lift fun e => .error (message e)

end Logged

namespace Command

/-- Read the records and build their hierarchy. -/
def loadHierarchy (lib : JsonLibrary) (color : Bool) (path : String)
    (file : Except FileError String) : Logged Hierarchy := do
  let text ← Logged.report
    (fun e : FileError => s!"reading {Style.underlined.paint color path}: {e.message}") file
  let records ← Logged.report (fun message => s!"{path}: {message}") (readRecords lib text)
  Logged.log [Notice.recordsLoaded path records]
  Logged.log (Notice.recordsMerged records)
  let h ← Logged.report (fun e : HierarchyError => s!"{path}: {e.message}")
    (Hierarchy.ofRecords records)
  Logged.log [Notice.hierarchyBuilt h]
  return h

/-- Lay out every cloud. -/
def buildLayouts (h : Hierarchy) (options : LayoutOptions) : Logged Layouts := do
  Logged.log (Notice.cloudsLaidOut h options h.roots)
  let l ← Logged.lift Failure.ofLayoutError (Layouts.build h options)
  Logged.log [Notice.allLaidOut l]
  return l

/-- Carry out a command on the contents of its record file, and give its output. -/
def run (lib : JsonLibrary) (color : Bool) (c : Command) (file : Except FileError String) :
    Logged String := do
  let h ← loadHierarchy lib color c.path file
  match c.action with
  | .dot root => Logged.report HierarchyError.message (h.graphviz root)
  | .layout json =>
    let l ← buildLayouts h c.options
    if json then Logged.lift Failure.ofLayoutError (Report.layoutJson lib l)
    else return Report.layoutText color l
  | .ranges precision json =>
    let l ← buildLayouts h c.options
    Logged.log (Notice.rangesMissing l)
    let keys ← Logged.lift Failure.ofLayoutError (Report.allRanges l precision)
    let entries ← Logged.lift Failure.ofLayoutError l.runtimeTable
    if json then return Report.rangesJson lib precision keys entries
    else return Report.rangesText color precision keys entries
  | .translate key offset relative json =>
    let l ← buildLayouts h c.options
    let translated ← Logged.lift Failure.ofLayoutError (l.translate key offset relative)
    Logged.log [Notice.indexTranslated key offset relative translated]
    if json then return Report.indexJson lib key offset relative translated
    else return Report.indexText translated

end Command

/-- A message behind the label of an error. -/
def errorText (color : Bool) (message : String) : String :=
  Style.red.inBold.paint color "error" ++ ": " ++ message ++ "\n"

namespace Outcome

/-- A run that ends with an error. -/
def failure (errors : String) : Outcome := { code := 1, errors := errors }

/-- What a command leaves behind, its log aside. -/
def ofResult (color : Bool) : Except Failure String → Outcome
  | .ok output => { output := output }
  | .error (.error message) => .failure (errorText color message)
  | .error (.fault cause) => { code := 101, errors := cause.message ++ "\n" }

end Outcome

/-- What is to be done, and how it is to be logged. -/
structure Invocation where
  color : Bool
  log : LogOptions
  request : Except ArgumentError Request

namespace Invocation

/-- Take the log flags out of the arguments and read the others. -/
def ofArguments (level? : String → Option LogLevel) (s : Surroundings) (arguments : List String) :
    Except ArgumentError Invocation := do
  let (rest, settings) ← LogSettings.extract level? arguments
  let options := LogOptions.merged level? s.logFormat s.logLevel settings
  return ⟨s.color, options.resolved s.logOnTerminal, Request.parse rest⟩

/-- The record file that is needed. -/
def path? (i : Invocation) : Option String :=
  match i.request with
  | .ok (.command c) => some c.path
  | _ => none

/-- Do what is to be done with the contents of the record file, or the reason why it
cannot be read. -/
def outcome (lib : JsonLibrary) (i : Invocation) (file : Except FileError String) : Outcome :=
  match i.request with
  | .error e => .failure (errorText i.color e.message)
  | .ok .usage => { output := Help.usage i.color }
  | .ok (.help topic) => { output := Help.on i.color topic }
  | .ok .version => { output := s!"vcloud {versionNumber}\n" }
  | .ok (.unknown name) =>
    .failure (errorText i.color s!"unknown command `{name}`" ++
      Style.cyan.paint i.color "hint" ++ ": run `" ++
      Style.green.paint i.color "vcloud help" ++ "` to list commands\n")
  | .ok (.command c) =>
    let (result, events) := (c.run lib i.color file).run.run []
    { Outcome.ofResult i.color result with
      events := events.filter fun e => i.log.level.admits e.level
      logFormat := i.log.format }

end Invocation

/-- A whole run, with a way to read files. -/
def run (libs : Libraries) (s : Surroundings) (read : String → Except FileError String)
    (arguments : List String) : Outcome :=
  match Invocation.ofArguments libs.level? s arguments with
  | .error e => .failure (errorText s.color e.message)
  | .ok i => i.outcome libs.json ((i.path?.map read).getD (.error .notFound))

end VtableCloud
