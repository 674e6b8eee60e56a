import VtableCloud.Hierarchy.OfRecords
import VtableCloud.Layouts.Range
import VtableCloud.Log.Event

/-!
# What the commands log

Each step of a command is reported by events that follow from its input and its result.
A step that fails still reports what it did before.
-/

namespace VtableCloud

namespace Notice

def number (name : String) (n : Nat) : String × FieldValue := (name, .number n)

def recordsLoaded (path : String) (records : List ClassRecord) : Event :=
  ⟨.debug, "vcloud::cli", "records loaded",
    [("path", .quoted path), number "classes" records.length]⟩

/-- The records that were dropped because they repeat earlier ones. -/
def recordsMerged (records : List ClassRecord) : List Event :=
  (repeatedRecords [] records).map fun name =>
    ⟨.debug, "vcloud::cha", "merged duplicate record", [("class", .bare name)]⟩

def hierarchyBuilt (h : Hierarchy) : Event :=
  ⟨.info, "vcloud::cha", "class hierarchy built",
    [number "classes" h.records.length, number "sub_vtables" h.size,
      number "clouds" h.roots.length]⟩

/-- How the slots of a cloud were arranged. -/
def cloudArranged (strategy : Strategy) (members : List Member) (table : Arrangement) : Event :=
  match strategy with
  | .ordered =>
    ⟨.debug, "vcloud::layout", "ordered cloud",
      [number "slots" table.slots.length, number "alignment" table.alignment]⟩
  | .interleaved =>
    ⟨.debug, "vcloud::layout", "interleaved cloud",
      [number "negative_rounds" (Direction.backward.allRounds members).length,
        number "positive_rounds" (Direction.forward.allRounds members).length]⟩

def cloudLaidOut (c : CloudLayout) : Event :=
  ⟨.debug, "vcloud::layout", "cloud laid out",
    [("root", .quoted c.root), ("strategy", .bare c.strategy.name),
      number "members" c.preorder.length, number "slots" c.slots.length,
      number "alignment" c.alignmentBytes]⟩

def allLaidOut (l : Layouts) : Event :=
  ⟨.info, "vcloud::layout", "all clouds laid out",
    [number "clouds" l.clouds.length, ("strategy", .bare l.options.strategy.name),
      number "slots" (l.clouds.flatMap (·.slots)).length]⟩

/-- The arrangement of a root's cloud, as far as there is one. -/
def rootArranged (h : Hierarchy) (options : LayoutOptions) (root : String) : List Event :=
  match options.check, h.rootId root with
  | .ok _, .ok id =>
    let members := h.paddedMembers id
    match options.strategy.table members with
    | .ok table => [cloudArranged options.strategy members table]
    | .error _ => []
  | _, _ => []

/-- The clouds of some roots, up to the first that cannot be laid out. -/
def cloudsLaidOut (h : Hierarchy) (options : LayoutOptions) : List String → List Event
  | [] => []
  | root :: rest =>
    rootArranged h options root ++
      match h.layoutCloud options root with
      | .error _ => []
      | .ok c =>
        cloudLaidOut c ::
          match c.checkDescendantRuns h with
          | .error _ => []
          | .ok _ => cloudsLaidOut h options rest

/-- Why a key has no range, if it has none. -/
def rangeMissing (h : Hierarchy) (key : SubVtableKey) : List Event :=
  let event (message : String) : Event :=
    ⟨.debug, "vcloud::ranges", message, [("key", .bare key.text)]⟩
  match h.find? key with
  | none => [event "no range for unknown sub-vtable"]
  | some id =>
    match h.representative id with
    | .ok _ => []
    | .error _ => [event "no defined descendant"]

/-- The keys without a range, in the order in which a report of ranges asks for them: the
members of each cloud, then the primary sub-vtables for the runtime table. -/
def rangesMissing (l : Layouts) : List Event :=
  let members := l.clouds.flatMap fun c => c.preorder.map l.hierarchy.key
  let primaries := l.hierarchy.records.map (·.key 0)
  (members ++ primaries).flatMap (rangeMissing l.hierarchy)

def indexTranslated (key : SubVtableKey) (offset : Int) (relative : Bool) (translated : Int) :
    Event :=
  ⟨.trace, "vcloud::layout", "translated index",
    [("key", .bare key.text), ("offset", .number offset), ("relative", .flag relative),
      ("translated", .number translated)]⟩

end Notice

end VtableCloud
