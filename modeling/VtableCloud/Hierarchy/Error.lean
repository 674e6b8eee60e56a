import VtableCloud.Record.Defect

/-!
# What is wrong with a set of records, or with a question about its hierarchy
-/

namespace VtableCloud

inductive HierarchyError where
  | undefinedParent (parent child : SubVtableKey)
  | noDefinedDescendant (key : SubVtableKey)
  | malformedRecord (className : String) (defect : RecordDefect)
  | conflictingRecords (className : String)
  | mixedParentClouds (key : SubVtableKey) (first second : String)
  | cycle (key : SubVtableKey)
  | unknownKey (key : SubVtableKey)
  | notARoot (className : String)
  deriving DecidableEq, Repr

namespace HierarchyError

def message : HierarchyError → String
  | undefinedParent parent child => s!"parent {parent.text} of {child.text} has no class record"
  | noDefinedDescendant key => s!"{key.text} is undefined and has no defined descendant"
  | malformedRecord className defect => s!"malformed record for `{className}`: {defect.message}"
  | conflictingRecords className => s!"conflicting records for `{className}`"
  | mixedParentClouds key first second =>
    s!"parents of {key.text} lie in different clouds (`{first}` and `{second}`)"
  | cycle key => s!"inheritance cycle through {key.text}"
  | unknownKey key => s!"unknown sub-vtable {key.text}"
  | notARoot className => s!"`{className}` is not a cloud root"

end HierarchyError

end VtableCloud
