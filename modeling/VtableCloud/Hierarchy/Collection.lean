import VtableCloud.Hierarchy.Error

/-!
# Bringing records together

The same class may be described several times: by equal records, or by declarations
and a definition of the same sub-vtables, of which the definition counts. Anything
else is a conflict. The collected records are in name order, one for each class.
-/

namespace VtableCloud

namespace ClassRecord

/-- Two records of one class as one, unless they conflict. -/
def merge? (old new : ClassRecord) : Option ClassRecord :=
  if old = new then some old
  else if old.subVtables = new.subVtables ∧ old.isDefined ≠ new.isDefined then
    some (if new.isDefined then new else old)
  else none

end ClassRecord

/-- Put a record in its place among records in name order. -/
def placeRecord (new : ClassRecord) :
    List ClassRecord → Except HierarchyError (List ClassRecord)
  | [] => .ok [new]
  | r :: rest =>
    if new.name < r.name then .ok (new :: r :: rest)
    else if new.name = r.name then
      match r.merge? new with
      | some merged => .ok (merged :: rest)
      | none => .error (.conflictingRecords new.name)
    else (r :: ·) <$> placeRecord new rest

/-- Take up one more record, if it is well formed and does not conflict. -/
def collectRecord (records : List ClassRecord) (new : ClassRecord) :
    Except HierarchyError (List ClassRecord) :=
  match new.defect? with
  | some defect => .error (.malformedRecord new.name defect)
  | none => placeRecord new records

/-- One record for each class, in name order. The first record that is malformed or
conflicts with those before it is an error. -/
def collectRecords (records : List ClassRecord) : Except HierarchyError (List ClassRecord) :=
  records.foldlM collectRecord []

/-- The classes of the records that repeat one taken up before, in the order in which
the records are taken up, as far as that goes. -/
def repeatedRecords (collected : List ClassRecord) : List ClassRecord → List String
  | [] => []
  | r :: rest =>
    match collectRecord collected r with
    | .error _ => []
    | .ok more =>
      if r ∈ collected then r.name :: repeatedRecords more rest else repeatedRecords more rest

end VtableCloud
