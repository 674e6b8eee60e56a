import VtableCloud.CommandLine.Run
import VtableCloud.Json.Standard

/-!
# The program

Reads the arguments, the environment and the record file, and writes what the run
leaves behind.
-/

namespace VtableCloud

/-- The libraries that the program is built with. -/
def standardLibraries : Libraries := ⟨standardJson, LogLevel.standard?⟩

/-- The system's code of an error, if it has one. -/
def systemCode? : IO.Error → Option UInt32
  | .alreadyExists _ code _ | .otherError code _ | .resourceBusy code _
  | .resourceVanished code _ | .unsupportedOperation code _ | .hardwareFault code _
  | .unsatisfiedConstraints code _ | .illegalOperation code _ | .protocolError code _
  | .timeExpired code _ | .interrupted _ code _ | .noFileOrDirectory _ code _
  | .invalidArgument _ code _ | .permissionDenied _ code _ | .resourceExhausted _ code _
  | .inappropriateType _ code _ | .noSuchThing _ code _ => some code
  | .unexpectedEof | .userError _ => none

/-- Why a file could not be read. The system's number of the cause may come negated. -/
def fileErrorOf (e : IO.Error) : FileError :=
  let cause? := (systemCode? e).bind fun code => FileError.ofNumber? code.toInt32.toInt.natAbs
  cause?.getD (.other (toString e))

/-- The text of a file, or why there is none. -/
def readText (path : String) : IO (Except FileError String) := do
  try
    let bytes ← IO.FS.readBinFile path
    match String.fromUTF8? bytes with
    | some text => return .ok text
    | none => return .error .notText
  catch e =>
    return .error (fileErrorOf e)

/-- Whether output is coloured: as the environment says, or else on a terminal. -/
def wantsColor : IO Bool := do
  if (← IO.getEnv "NO_COLOR").isSome then
    return false
  if (← IO.getEnv "FORCE_COLOR").isSome then
    return true
  (← IO.getStdout).isTty

def surroundings : IO Surroundings := do
  return {
    color := ← wantsColor
    logFormat := ← IO.getEnv "VCLOUD_LOG_FORMAT"
    logLevel := ← IO.getEnv "VCLOUD_LOG_LEVEL"
    logOnTerminal := ← (← IO.getStderr).isTty }

/-- Carry out the arguments, reading the one file they need. -/
def outcomeOf (s : Surroundings) (arguments : List String) : IO Outcome := do
  let libs := standardLibraries
  match (Invocation.ofArguments libs.level? s arguments).toOption.bind Invocation.path? with
  | some path =>
    let file ← readText path
    return run libs s (fun _ => file) arguments
  | none => return run libs s (fun _ => .error .notFound) arguments

end VtableCloud

def main (arguments : List String) : IO UInt32 := do
  let outcome ← VtableCloud.outcomeOf (← VtableCloud.surroundings) arguments
  for e in outcome.events do
    let written := VtableCloud.standardJson.compact e.json
    IO.eprintln (if outcome.logFormat = .json then written else e.line)
  IO.eprint outcome.errors
  IO.print outcome.output
  return outcome.code.toUInt32
