import VtableCloud.Hierarchy.Error

/-!
# Errors of layouts and of questions about them

A `Violation` says how a layout breaks one of its guarantees, a `Fault` where an operation
on machine words is not defined. A fault stops the program.
-/

namespace VtableCloud

inductive Violation where
  | notAMember
  | undefinedPlaced
  | outside (index first : Int) (last : Nat)
  | placedTwice (index : Int) (previous position : Nat)
  | incomplete (placed expected : Nat)
  | disordered
  | scattered
  | unaligned (position alignment : Nat)
  | notContained (parent : SubVtableKey) (parentBefore parentAfter childBefore childAfter : Nat)
  | moved (parent : SubVtableKey) (distance inParent inChild : Int)
  | overlappingRuns
  | wrongSpan (span descendants : Nat)
  | missedDescendant (key : SubVtableKey)
  | neverLaidOut
  | unplaced
  | noElement (index : Int)
  deriving DecidableEq, Repr

namespace Violation

def message : Violation → String
  | notAMember => "not a member of the cloud"
  | undefinedPlaced => "undefined sub-vtable placed in the table"
  | outside index first last => s!"slot {index} outside [{first}, {last}]"
  | placedTwice index previous position =>
    s!"slot {index} placed twice, at {previous} and {position}"
  | incomplete placed expected => s!"{placed} of {expected} slots placed"
  | disordered => "slot order not preserved"
  | scattered => "slots not contiguous"
  | unaligned position alignment =>
    s!"address point at {position} is not {alignment}-slot aligned"
  | notContained parent parentBefore parentAfter childBefore childAfter =>
    s!"does not contain parent {parent.text} ({parentBefore}+{parentAfter} slots around " ++
      s!"the address point, child has {childBefore}+{childAfter})"
  | moved parent distance inParent inChild =>
    s!"relative slot {distance} of parent {parent.text} moves to {inParent}, " ++
      s!"child has it at {inChild}"
  | overlappingRuns => "preorder ranges overlap"
  | wrongSpan span descendants => s!"preorder ranges span {span} nodes, {descendants} descendants"
  | missedDescendant key => s!"descendant {key.text} outside the preorder ranges"
  | neverLaidOut => "cloud was never laid out"
  | unplaced => "no placement for a defined sub-vtable"
  | noElement index => s!"slot {index} has no element"

end Violation

inductive Fault where
  | zeroDivisor
  | indexOutOfBounds
  deriving DecidableEq, Repr

def Fault.message : Fault → String
  | zeroDivisor => "attempt to calculate the remainder with a divisor of zero"
  | indexOutOfBounds => "index out of bounds"

inductive LayoutError where
  | invariantViolation (cloud : String) (key : SubVtableKey) (violation : Violation)
  | indexOutOfRange (key : SubVtableKey) (offset : Int) (length : Nat)
  | misaligned (key : SubVtableKey) (bytes : Int) (wordWidth : Nat)
  | zeroWordWidth
  | unknownFunction (className name : String)
  | hierarchy (error : HierarchyError)
  | fault (cause : Fault)
  deriving DecidableEq, Repr

namespace LayoutError

def message : LayoutError → String
  | invariantViolation cloud key violation =>
    s!"layout of cloud `{cloud}` is broken at {key.text}: {violation.message}"
  | indexOutOfRange key offset length =>
    s!"offset {offset} is outside the {length} slots of {key.text}"
  | misaligned key bytes wordWidth =>
    s!"byte offset {bytes} into {key.text} is not a multiple of the {wordWidth}-byte word"
  | zeroWordWidth => "word width must be positive"
  | unknownFunction className name => s!"no virtual function `{name}` in `{className}`"
  | hierarchy error => error.message
  | fault cause => cause.message

/-- The first violation found in a cloud, if any, as an error. -/
def ofViolation (cloud : String) : Option (SubVtableKey × Violation) → Except LayoutError Unit
  | some (key, violation) => .error (.invariantViolation cloud key violation)
  | none => .ok ()

end LayoutError

end VtableCloud
