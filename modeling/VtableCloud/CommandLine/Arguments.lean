import VtableCloud.CommandLine.Error
import VtableCloud.Layout.Strategy
import VtableCloud.Text.Decimal

/-!
# Arguments of a command

Flags and positional arguments stand in any order. Only what begins with two dashes is
a flag, so that negative numbers are positional. Each argument says something of its
own, and an argument list says all of it together.

* `CommandArgs.parse` reads an argument list;
* `CommandArgs.append` joins what two lists say.
-/

namespace VtableCloud

structure CommandArgs where
  positional : List String := []
  interleave : Bool := false
  wordWidth : Option Nat := none
  json : Bool := false
  precise : Bool := false
  absolute : Bool := false
  deriving DecidableEq, Repr, Inhabited

/-- A word width in bytes. -/
def parseWordWidth (value : String) : Except ArgumentError Nat :=
  match unsignedNumber? value with
  | some 0 => .error .wordWidthNotPositive
  | some width => .ok width
  | none => .error (.wordWidthNotANumber value)

/-- The value behind the equals sign of a word width flag. -/
def inlineWordWidth? (argument : String) : Option String :=
  let flag := "--word-width=".toList
  if flag.isPrefixOf argument.toList then
    some (String.ofList (argument.toList.drop flag.length))
  else
    none

/-- Whether an argument is read as a flag. -/
def isFlag (argument : String) : Bool := "--".toList.isPrefixOf argument.toList

namespace CommandArgs

/-- What two argument lists say, one after the other. Of two word widths the later
counts. -/
def append (a b : CommandArgs) : CommandArgs where
  positional := a.positional ++ b.positional
  interleave := a.interleave || b.interleave
  wordWidth := b.wordWidth <|> a.wordWidth
  json := a.json || b.json
  precise := a.precise || b.precise
  absolute := a.absolute || b.absolute

instance : Append CommandArgs := ⟨append⟩

/-- What one argument says that needs no other. -/
def ofArgument (argument : String) : Except ArgumentError CommandArgs :=
  if argument = "--interleave" then .ok { interleave := true }
  else if argument = "--json" then .ok { json := true }
  else if argument = "--precise" then .ok { precise := true }
  else if argument = "--absolute" then .ok { absolute := true }
  else match inlineWordWidth? argument with
    | some value => (parseWordWidth value).map fun width => { wordWidth := some width }
    | none =>
      if isFlag argument then .error (.unknownFlag argument)
      else .ok { positional := [argument] }

/-- What an argument list says. A word width without a value of its own takes the next
argument, whatever that is. -/
def parse : List String → Except ArgumentError CommandArgs
  | [] => .ok {}
  | argument :: rest =>
    if argument = "--word-width" then
      match rest with
      | [] => .error (.needsValue argument)
      | value :: rest => do
        let width ← parseWordWidth value
        return { wordWidth := some width } ++ (← parse rest)
    else do
      let own ← ofArgument argument
      return own ++ (← parse rest)

def layoutOptions (a : CommandArgs) : LayoutOptions where
  strategy := if a.interleave then .interleaved else .ordered
  wordWidth := a.wordWidth.getD 8

/-- The positional argument at an index, under the name it has in an error. -/
def get (a : CommandArgs) (index : Nat) (name : String) : Except ArgumentError String :=
  match a.positional[index]? with
  | some value => .ok value
  | none => .error (.missing name)

/-- Refuse more positional arguments than a command takes. -/
def expectAtMost (a : CommandArgs) (count : Nat) : Except ArgumentError Unit :=
  match a.positional[count]? with
  | some extra => .error (.unexpected extra)
  | none => .ok ()

end CommandArgs

end VtableCloud
