import VtableCloud.Layouts.Range
import VtableCloud.Layouts.Table
import VtableCloud.Record.Json
import VtableCloud.Text.Style

/-!
# Reports

The results of the commands as text and as JSON.
-/

namespace VtableCloud

namespace Report

/-! ## Layouts -/

/-- The line of one slot. Address points are marked. -/
def slotLine (color : Bool) (addressPoints : List Nat) (position : Nat) : Slot → String
  | .dummy => fiveColumns position ++ " : " ++ Style.dimmed.paint color "<dummy>" ++ "\n"
  | .entry key index =>
    let entry := s!"{fiveColumns position} : {Style.cyan.paint color key.text}[{index}]"
    if addressPoints.contains position then
      entry ++ "  " ++ Style.green.paint color "<- address point" ++ "\n"
    else
      entry ++ "\n"

/-- The new table of one cloud, slot by slot. -/
def cloudText (color : Bool) (h : Hierarchy) (c : CloudLayout) : String :=
  let addressPoints := c.placements.filterMap fun p => c.addressPointPosition? h p.key
  let heading := s!"{Style.bold.paint color c.tableName}  {c.strategy.name}, " ++
    s!"{c.slots.length} slots, align {c.alignmentBytes} bytes\n"
  let rule := Style.dimmed.paint color (String.ofList (List.replicate 40 '─')) ++ "\n"
  let rows := c.slots.zipIdx.map fun (slot, i) => slotLine color addressPoints i slot
  heading ++ rule ++ String.join rows ++ "\n"

/-- What is printed when a phase has gone well. -/
def banner (color : Bool) (phase : String) : String :=
  let edge := Style.dimmed.paint color "==="
  edge ++ " " ++ Style.green.inBold.paint color (phase ++ " OK") ++ " " ++ edge ++ "\n"

def layoutText (color : Bool) (l : Layouts) : String :=
  let count := l.clouds.length
  let plural := if count = 1 then "" else "s"
  String.join (l.clouds.map (cloudText color l.hierarchy)) ++
    banner color s!"Layout: {count} cloud{plural}"

section

variable (lib : JsonLibrary)

def slotJson : Slot → Json
  | .dummy => .str "Dummy"
  | .entry key index => .obj [("Entry", .obj [("index", .int index), ("key", key.toJson lib)])]

def thunkJson (t : ThunkClone) : Json :=
  .obj [
    ("clone", .str t.clone),
    ("key", t.key.toJson lib),
    ("layout_class", .str t.layoutClass),
    ("original", .str t.thunk)]

def tableJson (t : Table) : Json :=
  .obj [
    ("alignment", .nat t.alignment),
    ("elements", .arr (t.elements.map (Element.toJson lib))),
    ("name", .str t.name),
    ("thunks", .arr (t.thunks.map (thunkJson lib)))]

/-- One cloud with its filled table. -/
def cloudJson (h : Hierarchy) (c : CloudLayout) : Except LayoutError Json := do
  let table ← materialize h c
  let addressPoints := c.placements.filterMap fun p =>
    (c.addressPointOffset? h p.key).map fun offset =>
      Json.obj [("key", p.key.toJson lib), ("offset", .nat offset)]
  return .obj [
    ("address_points", .arr addressPoints),
    ("root", .str c.root),
    ("slots", .arr (c.slots.map (slotJson lib))),
    ("strategy", .str c.strategy.name),
    ("table", tableJson lib table),
    ("word_width", .nat c.wordWidth)]

def layoutJson (l : Layouts) : Except LayoutError String := do
  let clouds ← l.clouds.mapM (cloudJson lib l.hierarchy)
  return lib.indented (.obj [("clouds", .arr clouds)]) ++ "\n"

end

/-! ## Ranges -/

/-- The ranges of one key, and the table they point into. -/
structure KeyRanges where
  key : SubVtableKey
  table : String
  ranges : Option RangeSet
  deriving DecidableEq, Repr

/-- The ranges of the members of one cloud, in preorder. -/
def cloudRanges (l : Layouts) (precision : Precision) (c : CloudLayout) :
    Except LayoutError (List KeyRanges) :=
  c.preorder.mapM fun id => do
    let key := l.hierarchy.key id
    return ⟨key, c.tableName, ← l.rangeFor key precision⟩

/-- The ranges of all keys, cloud by cloud. -/
def allRanges (l : Layouts) (precision : Precision) : Except LayoutError (List KeyRanges) := do
  return (← l.clouds.mapM (cloudRanges l precision)).flatten

def describeRange (r : RangeTuple) : String :=
  s!"[{r.start.toNat}, {r.start.toNat + r.width.toNat}) align {r.alignment.toNat}"

def keyText (color : Bool) (k : KeyRanges) : String :=
  let key := Style.cyan.paint color k.key.text
  match k.ranges with
  | none => "  " ++ key ++ "  " ++ Style.red.paint color "none" ++ "\n"
  | some set => String.join (set.map fun r => s!"  {key}  {k.table}  {describeRange r}\n")

def entryText (color : Bool) (e : RangeEntry) : String :=
  s!"  {Style.cyan.paint color e.className}  {e.table}  start {e.range.start.toNat} " ++
    s!"width {e.range.width.toNat} align {e.range.alignment.toNat}\n"

def rangesText (color : Bool) (precision : Precision) (keys : List KeyRanges)
    (entries : List RangeEntry) : String :=
  let header := Style.yellow.inBold.paint color
  header s!"Ranges ({precision.name}):" ++ "\n" ++ String.join (keys.map (keyText color)) ++
    "\n" ++ header "Runtime table:" ++ "\n" ++ String.join (entries.map (entryText color))

def rangeMembers (r : RangeTuple) : List (String × Json) :=
  [("start", .nat r.start.toNat), ("width", .nat r.width.toNat),
    ("alignment", .nat r.alignment.toNat)]

section

variable (lib : JsonLibrary)

def keyJson (k : KeyRanges) : Json :=
  .obj [
    ("key", k.key.toJson lib),
    ("table", .str k.table),
    ("tuples", match k.ranges with
      | none => .null
      | some set => .arr (set.map fun r => .obj (rangeMembers r)))]

def entryJson (e : RangeEntry) : Json :=
  .obj (("class", .str e.className) :: ("table", .str e.table) :: rangeMembers e.range)

def rangesJson (precision : Precision) (keys : List KeyRanges) (entries : List RangeEntry) :
    String :=
  lib.indented (.obj [
    ("precision", .str precision.name),
    ("ranges", .arr (keys.map (keyJson lib))),
    ("runtime_table", .arr (entries.map entryJson))]) ++ "\n"

end

/-! ## Translated indices -/

def indexText (translated : Int) : String := s!"{translated}\n"

def indexJson (lib : JsonLibrary) (key : SubVtableKey) (offset : Int) (relative : Bool)
    (translated : Int) : String :=
  lib.compact (.obj [
    ("key", key.toJson lib),
    ("offset", .int offset),
    ("relative", .bool relative),
    ("translated", .int translated)]) ++ "\n"

end Report

end VtableCloud
