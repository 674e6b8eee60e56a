import VtableCloud.Layout.Violation

/-!
# Layout options
-/

namespace VtableCloud

/-- How the slots of a cloud are arranged in its new table. -/
inductive Strategy where
  /-- Sub-vtables one after another, each address point aligned. -/
  | ordered
  /-- The slots of all sub-vtables interleaved around their address points. -/
  | interleaved
  deriving DecidableEq, Repr, Inhabited

def Strategy.name : Strategy → String
  | ordered => "ordered"
  | interleaved => "interleaved"

/-- The arrangement of slots and the number of bytes in each. -/
structure LayoutOptions where
  strategy : Strategy := .ordered
  wordWidth : Nat := 8
  deriving DecidableEq, Repr, Inhabited

/-- Ranges and byte offsets divide by the word width, so it has to be positive. -/
def LayoutOptions.check (o : LayoutOptions) : Except LayoutError LayoutOptions :=
  if o.wordWidth = 0 then .error .zeroWordWidth else .ok o

end VtableCloud
