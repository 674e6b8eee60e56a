/-!
# Vtable elements

What one slot of a vtable holds. Elements are carried through a new
layout unread, except that virtual thunks are recognised by their symbol.
-/

namespace VtableCloud

/-- One slot of a vtable. An offset is a signed machine word. -/
inductive Element where
  /-- An empty slot, also used as filler in new tables. -/
  | null
  /-- An offset to top, a virtual-base offset or a vcall offset. -/
  | offset (value : Int64)
  /-- A pointer to the type info of the class. -/
  | rtti (symbol : String)
  /-- A pointer to a function or a thunk. -/
  | function (symbol : String)
  deriving DecidableEq, Repr, Inhabited

/-- Symbols of virtual thunks begin with `_ZTv` or `_ZTcv`. -/
def isVirtualThunkSymbol (symbol : String) : Bool :=
  "_ZTv".toList.isPrefixOf symbol.toList || "_ZTcv".toList.isPrefixOf symbol.toList

namespace Element

/-- A virtual thunk reads a vcall offset from the vtable, so its body depends on
the layout of the table. -/
def isVirtualThunk : Element → Bool
  | function symbol => isVirtualThunkSymbol symbol
  | _ => false

def symbol? : Element → Option String
  | rtti symbol | function symbol => some symbol
  | _ => none

end Element

end VtableCloud
