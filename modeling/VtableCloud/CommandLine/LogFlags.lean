import VtableCloud.CommandLine.Error
import VtableCloud.Log.Level

/-!
# Log settings

Flags on the command line come before variables of the environment, and these before
the defaults. The library of the log knows the names of the levels.

* `LogSettings.extract` takes the log flags out of an argument list;
* `LogOptions.merged` settles what holds.
-/

namespace VtableCloud

/-- What the flags on a command line say of the log. -/
structure LogSettings where
  format : Option LogFormat := none
  level : Option LogLevel := none
  deriving DecidableEq, Repr, Inhabited

/-- A flag of the log. -/
inductive LogFlag where
  | level
  | format
  deriving DecidableEq, Repr

namespace LogFlag

def text : LogFlag → String
  | level => "--log-level"
  | format => "--log-format"

/-- The setting that a flag makes with a value. -/
def setting (level? : String → Option LogLevel) (value : String) :
    LogFlag → Except ArgumentError LogSettings
  | level =>
    match LogLevel.ofText? level? value with
    | some l => .ok { level := some l }
    | none => .error (.unknownLogLevel value)
  | format =>
    match LogFormat.ofText? value with
    | some f => .ok { format := some f }
    | none => .error (.unknownLogFormat value)

/-- The log flag of an argument, with its value if that follows an equals sign. -/
def ofArgument? (argument : String) : Option (LogFlag × Option String) :=
  let chars := argument.toList
  let name := String.ofList (chars.takeWhile (· ≠ '='))
  let value := match chars.dropWhile (· ≠ '=') with
    | [] => none
    | _ :: value => some (String.ofList value)
  if name = level.text then some (level, value)
  else if name = format.text then some (format, value)
  else none

end LogFlag

namespace LogSettings

/-- Settings made one after the other, of which the later count. -/
def followedBy (earlier later : LogSettings) : LogSettings :=
  ⟨later.format <|> earlier.format, later.level <|> earlier.level⟩

/-- Take the log flags with their values out of an argument list, wherever they stand.
A flag without a value of its own takes the next argument, whatever that is. -/
def extract (level? : String → Option LogLevel) :
    List String → Except ArgumentError (List String × LogSettings)
  | [] => .ok ([], {})
  | argument :: rest =>
    match LogFlag.ofArgument? argument with
    | none => do
      let (kept, settings) ← extract level? rest
      return (argument :: kept, settings)
    | some (flag, some value) => do
      let own ← flag.setting level? value
      let (kept, settings) ← extract level? rest
      return (kept, own.followedBy settings)
    | some (flag, none) =>
      match rest with
      | [] => .error (.needsValue flag.text)
      | value :: rest => do
        let own ← flag.setting level? value
        let (kept, settings) ← extract level? rest
        return (kept, own.followedBy settings)

end LogSettings

/-- The format and level that hold. -/
structure LogOptions where
  format : LogFormat := .auto
  level : LogLevel := .info
  deriving DecidableEq, Repr, Inhabited

namespace LogOptions

/-- Values of environment variables. One that means nothing changes nothing. -/
def withEnvironment (level? : String → Option LogLevel) (o : LogOptions)
    (format level : Option String) : LogOptions where
  format := (format.bind LogFormat.ofText?).getD o.format
  level := (level.bind (LogLevel.ofText? level?)).getD o.level

def withSettings (o : LogOptions) (s : LogSettings) : LogOptions :=
  ⟨s.format.getD o.format, s.level.getD o.level⟩

/-- The options that hold under the given environment variables and flags. -/
def merged (level? : String → Option LogLevel) (format level : Option String) (s : LogSettings) :
    LogOptions :=
  (({} : LogOptions).withEnvironment level? format level).withSettings s

def resolved (o : LogOptions) (onTerminal : Bool) : LogOptions :=
  { o with format := o.format.resolved onTerminal }

end LogOptions

end VtableCloud
