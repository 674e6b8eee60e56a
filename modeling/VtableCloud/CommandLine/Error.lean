/-!
# Errors in the arguments of a command line
-/

namespace VtableCloud

inductive ArgumentError where
  | needsValue (flag : String)
  | unknownLogLevel (value : String)
  | unknownLogFormat (value : String)
  | wordWidthNotPositive
  | wordWidthNotANumber (value : String)
  | unknownFlag (flag : String)
  | missing (name : String)
  | unexpected (argument : String)
  | orderNotANumber (value : String)
  | offsetNotANumber (value : String)
  deriving DecidableEq, Repr

def ArgumentError.message : ArgumentError → String
  | needsValue flag => s!"`{flag}` needs a value"
  | unknownLogLevel value => s!"unknown log level `{value}`"
  | unknownLogFormat value => s!"unknown log format `{value}`"
  | wordWidthNotPositive => "`--word-width` must be positive"
  | wordWidthNotANumber value => s!"`--word-width` expects a number, got `{value}`"
  | unknownFlag flag => s!"unknown flag `{flag}`"
  | missing name => s!"missing {name}"
  | unexpected argument => s!"unexpected argument `{argument}`"
  | orderNotANumber value =>
    s!"sub-vtable order must be a non-negative number, got `{value}`"
  | offsetNotANumber value => s!"offset must be a number, got `{value}`"

end VtableCloud
