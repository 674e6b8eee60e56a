/-!
# Why a file cannot be read

The causes are those of the operating system, and a last one for a file that holds no
text.
-/

namespace VtableCloud

inductive FileError where
  | notFound
  | permissionDenied
  | notADirectory
  | isADirectory
  | nameTooLong
  /-- A file that is not in UTF-8. -/
  | notText
  | other (reason : String)
  deriving DecidableEq, Repr, Inhabited

namespace FileError

/-- The system's number of a cause. -/
def number? : FileError → Option Nat
  | notFound => some 2
  | permissionDenied => some 13
  | notADirectory => some 20
  | isADirectory => some 21
  | nameTooLong => some 36
  | notText | other _ => none

/-- The system's description of a cause. -/
def reason : FileError → String
  | notFound => "No such file or directory"
  | permissionDenied => "Permission denied"
  | notADirectory => "Not a directory"
  | isADirectory => "Is a directory"
  | nameTooLong => "File name too long"
  | notText => "stream did not contain valid UTF-8"
  | other reason => reason

def message (e : FileError) : String :=
  match e.number? with
  | some number => s!"{e.reason} (os error {number})"
  | none => e.reason

/-- The cause of a number, if it has one of its own here. -/
def ofNumber? (number : Nat) : Option FileError :=
  [notFound, permissionDenied, notADirectory, isADirectory, nameTooLong].find?
    (·.number? == some number)

end FileError

end VtableCloud
