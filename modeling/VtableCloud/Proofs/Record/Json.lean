import Mathlib.Data.List.Sort
import VtableCloud.Proofs.Json.Standard
import VtableCloud.Record.Json

/-!
# Records written and read back

What stands in a record file for given records, said without the reader: each object gives
its fields by name, in any order and beside others, and may leave out a field that holds its
default; parents are listed in any order and as often as one likes.

* `SubVtable.Form`, `ClassRecord.Form`, `RecordFileForm`: the values that stand for records;
* `ClassRecord.InWords`: all slot numbers are machine words, which is all that a file can say;
* `recordFileForm_written`: the file that is written, with every field, is one of the values;
* `readRecords_written`: with a library that behaves as documented, every text of such a value is
  read as the records.
-/

namespace VtableCloud

/-! ## Forms -/

/-- How deep the values of other fields may be nested. A record file is nested seven deep itself. -/
def besideDepth : Nat := JsonLibrary.nestingLimit - 7

/-- The values that stand for a key. -/
inductive SubVtableKey.Form (k : SubVtableKey) : Json → Prop
  | obj {members : List (String × Json)}
      (className : Json.Gives members "class" (· = .str k.className))
      (order : Json.Gives members "order" (· = .nat k.order))
      (beside : Json.Beside members fieldNames besideDepth) : Form k (.obj members)

/-- The values that stand for a set of keys: the listings of its keys, in any order and
with repetitions. -/
inductive KeySet.Form (s : KeySet) : Json → Prop
  | listing {ks : List SubVtableKey} {j : Json} (same : ∀ k, k ∈ ks ↔ k ∈ s)
      (lists : Json.Lists SubVtableKey.Form ks j) : Form s j

/-- The values that stand for a function. -/
inductive FunctionEntry.Form (f : FunctionEntry) : Json → Prop
  | obj {members : List (String × Json)} (name : Json.Gives members "name" (· = .str f.name))
      (offset : Json.Gives members "offset" (· = .nat f.offset))
      (beside : Json.Beside members fieldNames besideDepth) : Form f (.obj members)

/-- The values that stand for a sub-vtable. -/
inductive SubVtable.Form (s : SubVtable) : Json → Prop
  | obj {members : List (String × Json)}
      (order : Json.Gives members "order" (· = .nat s.order))
      (parents : Json.GivesOrOmits members "parents" s.parents.Form (s.parents = .empty))
      (start : Json.Gives members "start" (· = .nat s.start))
      (last : Json.Gives members "end" (· = .nat s.last))
      (addressPoint : Json.Gives members "address_point" (· = .nat s.addressPoint))
      (functions : Json.GivesOrOmits members "functions"
        (Json.Lists FunctionEntry.Form s.functions) (s.functions = []))
      (beside : Json.Beside members fieldNames besideDepth) : Form s (.obj members)

/-- The value that stands for an element. -/
inductive Element.Form : Element → Json → Prop
  | null : Form .null (.str "null")
  | offset (value : Int64) : Form (.offset value) (.obj [("offset", .int value.toInt)])
  | rtti (symbol : String) : Form (.rtti symbol) (.obj [("rtti", .str symbol)])
  | function (symbol : String) : Form (.function symbol) (.obj [("function", .str symbol)])

/-- The values that stand for a record. -/
inductive ClassRecord.Form (r : ClassRecord) : Json → Prop
  | obj {members : List (String × Json)} (name : Json.Gives members "name" (· = .str r.name))
      (subVtables : Json.Gives members "sub_vtables" (Json.Lists SubVtable.Form r.subVtables))
      (elements : Json.GivesOrOmits members "elements" (Json.Lists Element.Form r.elements)
        (r.elements = []))
      (isDefined : Json.GivesOrOmits members "is_defined" (· = .bool r.isDefined)
        (r.isDefined = true))
      (beside : Json.Beside members fieldNames besideDepth) : Form r (.obj members)

/-- The values that a record file may hold for given records. -/
inductive RecordFileForm (records : List ClassRecord) : Json → Prop
  | obj {members : List (String × Json)}
      (classes : Json.Gives members "classes" (Json.Lists ClassRecord.Form records))
      (beside : Json.Beside members ["classes"] besideDepth) : RecordFileForm records (.obj members)

/-! ## Words -/

/-- The order of a key is a machine word. -/
def SubVtableKey.InWords (k : SubVtableKey) : Prop := k.order < wordCount

/-- The offset of a function is a machine word. -/
def FunctionEntry.InWords (f : FunctionEntry) : Prop := f.offset < wordCount

/-- All numbers of a sub-vtable are machine words. Its last slot is one by its type. -/
structure SubVtable.InWords (s : SubVtable) : Prop where
  order : s.order < wordCount
  parents : ∀ k ∈ s.parents, k.InWords
  start : s.start < wordCount
  addressPoint : s.addressPoint < wordCount
  functions : ∀ f ∈ s.functions, f.InWords

/-- All slot numbers of a record are machine words. The offsets among its elements are so by
their type. -/
def ClassRecord.InWords (r : ClassRecord) : Prop := ∀ s ∈ r.subVtables, s.InWords

/-- Two sets with the same keys are the same, because both are kept in order. -/
theorem KeySet.ext_mem {s t : KeySet} (same : ∀ k, k ∈ s ↔ k ∈ t) : s = t := by
  have : Std.Irrefl (α := SubVtableKey) (· < ·) := ⟨SubVtableKey.lt_irrefl⟩
  have : Std.Antisymm (α := SubVtableKey) (· < ·) :=
    ⟨fun a b ab ba => absurd (SubVtableKey.lt_trans ab ba) (SubVtableKey.lt_irrefl a)⟩
  have keys : s.keys = t.keys := s.sorted.eq_of_mem_iff t.sorted same
  cases s
  cases t
  simpa using keys

/-! ## The forms are plain -/

theorem SubVtableKey.Form.plain {k : SubVtableKey} {j : Json} (form : k.Form j)
    (word : k.InWords) : j.Plain (besideDepth + 1) := by
  obtain ⟨className, order, beside⟩ := form
  refine Json.plain_of_beside beside le_rfl ?_
  simp only [fieldNames, List.forall_mem_cons]
  exact ⟨className.plain fun _ form => form ▸ .str _,
    order.plain fun _ form => form ▸ Json.plain_nat word, by simp⟩

theorem KeySet.Form.plain {s : KeySet} {j : Json} (form : s.Form j) (words : ∀ k ∈ s, k.InWords) :
    j.Plain (besideDepth + 2) := by
  obtain ⟨same, lists⟩ := form
  exact lists.plain fun k mem _ form => form.plain (words k ((same k).mp mem))

theorem FunctionEntry.Form.plain {f : FunctionEntry} {j : Json} (form : f.Form j)
    (word : f.InWords) : j.Plain (besideDepth + 1) := by
  obtain ⟨name, offset, beside⟩ := form
  refine Json.plain_of_beside beside le_rfl ?_
  simp only [fieldNames, List.forall_mem_cons]
  exact ⟨name.plain fun _ form => form ▸ .str _,
    offset.plain fun _ form => form ▸ Json.plain_nat word, by simp⟩

theorem SubVtable.Form.plain {s : SubVtable} {j : Json} (form : s.Form j) (words : s.InWords) :
    j.Plain (besideDepth + 3) := by
  obtain ⟨order, parents, start, last, addressPoint, functions, beside⟩ := form
  refine Json.plain_of_beside beside (Nat.le_add_right _ 2) ?_
  simp only [fieldNames, List.forall_mem_cons]
  exact ⟨order.plain fun _ form => form ▸ Json.plain_nat words.order,
    parents.plain fun _ form => form.plain words.parents,
    start.plain fun _ form => form ▸ Json.plain_nat words.start,
    last.plain fun _ form => form ▸ Json.plain_nat s.last.isLt,
    addressPoint.plain fun _ form => form ▸ Json.plain_nat words.addressPoint,
    functions.plain fun _ lists => lists.plain fun f mem _ form =>
      form.plain (words.functions f mem), by simp⟩

theorem Element.Form.plain {e : Element} {j : Json} (form : e.Form j) {depth : Nat} :
    j.Plain (depth + 1) := by
  cases form with
  | null => exact .str _
  | offset value => exact .obj (List.forall_mem_singleton.mpr (Json.plain_toInt value))
  | rtti symbol => exact .obj (List.forall_mem_singleton.mpr (.str symbol))
  | function symbol => exact .obj (List.forall_mem_singleton.mpr (.str symbol))

theorem ClassRecord.Form.plain {r : ClassRecord} {j : Json} (form : r.Form j) (words : r.InWords) :
    j.Plain (besideDepth + 5) := by
  obtain ⟨name, subVtables, elements, isDefined, beside⟩ := form
  refine Json.plain_of_beside beside (Nat.le_add_right _ 4) ?_
  simp only [fieldNames, List.forall_mem_cons]
  exact ⟨name.plain fun _ form => form ▸ .str _,
    subVtables.plain fun _ lists => lists.plain fun s mem _ form => form.plain (words s mem),
    elements.plain fun _ lists => lists.plain fun _ _ _ form => form.plain,
    isDefined.plain fun _ form => form ▸ .bool _, by simp⟩

theorem RecordFileForm.plain {records : List ClassRecord} {j : Json}
    (form : RecordFileForm records j) (words : ∀ r ∈ records, r.InWords) :
    j.Plain JsonLibrary.nestingLimit := by
  obtain ⟨classes, beside⟩ := form
  refine Json.plain_of_beside beside (Nat.le_add_right _ 6) ?_
  exact List.forall_mem_singleton.mpr (classes.plain fun _ lists =>
    lists.plain fun r mem _ form => form.plain (words r mem))

section

variable {lib : JsonLibrary} (law : lib.Documented)

include law

/-! ## What is written has the form -/

theorem SubVtableKey.form_toJson {k : SubVtableKey} (word : k.InWords) :
    k.Form (k.toJson lib) := by
  rw [toJson, law.record, law.string, law.unsigned _ word]
  exact .obj (.once [] _ rfl (by simp) rfl) (.once [_] _ rfl (by simp) rfl)
    (by simp [Json.Beside, fieldNames])

theorem FunctionEntry.form_toJson {f : FunctionEntry} (word : f.InWords) :
    f.Form (f.toJson lib) := by
  rw [toJson, law.record, law.string, law.unsigned _ word]
  exact .obj (.once [] _ rfl (by simp) rfl) (.once [_] _ rfl (by simp) rfl)
    (by simp [Json.Beside, fieldNames])

theorem SubVtable.form_toJson {s : SubVtable} (words : s.InWords) : s.Form (s.toJson lib) := by
  have parents : s.parents.Form (.arr (s.parents.keys.map (SubVtableKey.toJson lib))) :=
    .listing (fun _ => Iff.rfl) (Json.lists_map _ fun k hk =>
      SubVtableKey.form_toJson law (words.parents k hk))
  have functions := Json.lists_map (FunctionEntry.toJson lib) fun f hf =>
    FunctionEntry.form_toJson law (words.functions f hf)
  rw [toJson, law.record, law.items, law.items, law.unsigned _ words.order,
    law.unsigned _ words.start, law.unsigned _ s.last.isLt, law.unsigned _ words.addressPoint]
  exact .obj (.once [] _ rfl (by simp) rfl) (.given (.once [_] _ rfl (by simp) parents))
    (.once [_, _] _ rfl (by simp) rfl) (.once [_, _, _] _ rfl (by simp) rfl)
    (.once [_, _, _, _] _ rfl (by simp) rfl)
    (.given (.once [_, _, _, _, _] _ rfl (by simp) functions))
    (by simp [Json.Beside, fieldNames])

theorem Element.form_toJson (e : Element) : e.Form (e.toJson lib) := by
  cases e with
  | null =>
    rw [toJson, law.unit]
    exact .null
  | offset value =>
    rw [toJson, law.signed, law.variant]
    exact .offset value
  | rtti symbol =>
    rw [toJson, law.string, law.variant]
    exact .rtti symbol
  | function symbol =>
    rw [toJson, law.string, law.variant]
    exact .function symbol

theorem ClassRecord.form_toJson {r : ClassRecord} (words : r.InWords) : r.Form (r.toJson lib) := by
  have subVtables := Json.lists_map (SubVtable.toJson lib) fun s hs =>
    SubVtable.form_toJson law (words s hs)
  have elements := Json.lists_map (Element.toJson lib) fun e (_ : e ∈ r.elements) =>
    Element.form_toJson law e
  rw [toJson, law.record, law.string, law.items, law.items, law.bool]
  exact .obj (.once [] _ rfl (by simp) rfl) (.once [_] _ rfl (by simp) subVtables)
    (.given (.once [_, _] _ rfl (by simp) elements))
    (.given (.once [_, _, _] _ rfl (by simp) rfl)) (by simp [Json.Beside, fieldNames])

/-- What is written as a record file. -/
theorem recordFileForm_written {records : List ClassRecord} (words : ∀ r ∈ records, r.InWords) :
    RecordFileForm records
      (lib.record [("classes", lib.items (records.map (ClassRecord.toJson lib)))]) := by
  rw [law.record, law.items]
  exact .obj (.once [] _ rfl (by simp) (Json.lists_map _ fun r hr =>
    ClassRecord.form_toJson law (words r hr))) (by simp [Json.Beside])

/-! ## Reading the forms -/

theorem SubVtableKey.Form.ofJson?_eq {k : SubVtableKey} {j : Json} (form : k.Form j)
    (word : k.InWords) : ofJson? lib j = some k := by
  obtain @⟨members, className, order, -⟩ := form
  have once : Json.Once members fieldNames := by
    simpa [Json.Once, fieldNames] using ⟨className.notTwice, order.notTwice⟩
  have readName : lib.field? fieldNames "class" lib.string? none _ = some k.className :=
    law.field?_of_gives (by decide) once className (fun _ form => form ▸ law.readString _) none
  have readOrder : lib.field? fieldNames "order" lib.unsigned? none _ = some ⟨k.order, word⟩ :=
    law.field?_of_gives (by decide) once order (fun _ form => form ▸ law.readNat word) none
  simp [ofJson?, readName, readOrder]

theorem KeySet.Form.ofJson?_eq {s : KeySet} {j : Json} (form : s.Form j)
    (words : ∀ k ∈ s, k.InWords) : ofJson? lib j = some s := by
  obtain ⟨same, lists⟩ := form
  have read := law.list?_eq lists fun k mem j form =>
    form.ofJson?_eq law (words k ((same k).mp mem))
  rw [ofJson?, read, Option.map_some]
  exact congrArg some (ext_mem fun k => mem_ofList.trans (same k))

theorem FunctionEntry.Form.ofJson?_eq {f : FunctionEntry} {j : Json} (form : f.Form j)
    (word : f.InWords) : ofJson? lib j = some f := by
  obtain @⟨members, name, offset, -⟩ := form
  have once : Json.Once members fieldNames := by
    simpa [Json.Once, fieldNames] using ⟨name.notTwice, offset.notTwice⟩
  have readName : lib.field? fieldNames "name" lib.string? none _ = some f.name :=
    law.field?_of_gives (by decide) once name (fun _ form => form ▸ law.readString _) none
  have readOffset : lib.field? fieldNames "offset" lib.unsigned? none _ = some ⟨f.offset, word⟩ :=
    law.field?_of_gives (by decide) once offset (fun _ form => form ▸ law.readNat word) none
  simp [ofJson?, readName, readOffset]

theorem SubVtable.Form.ofJson?_eq {s : SubVtable} {j : Json} (form : s.Form j)
    (words : s.InWords) : ofJson? lib j = some s := by
  obtain @⟨members, order, parents, start, last, addressPoint, functions, -⟩ := form
  have once : Json.Once members fieldNames := by
    simpa [Json.Once, fieldNames] using ⟨order.notTwice, parents.notTwice, start.notTwice,
      last.notTwice, addressPoint.notTwice, functions.notTwice⟩
  have number {name : String} {n : Nat} (gives : Json.Gives members name (· = .nat n))
      (word : n < wordCount)
      (known : name ∈ fieldNames) :
      lib.field? fieldNames name lib.unsigned? none (.obj members) = some ⟨n, word⟩ :=
    law.field?_of_gives known once gives (fun _ form => form ▸ law.readNat word) none
  have readParents :
      lib.field? fieldNames "parents" (KeySet.ofJson? lib) (some .empty) _ = some s.parents :=
    law.field?_of_givesOrOmits (by decide) once parents
      (fun _ form => form.ofJson?_eq law words.parents) Eq.symm
  have readFunctions :
      lib.field? fieldNames "functions" (lib.list? (FunctionEntry.ofJson? lib)) (some []) _ =
        some s.functions :=
    law.field?_of_givesOrOmits (by decide) once functions
      (fun _ lists => law.list?_eq lists fun f mem _ form =>
        form.ofJson?_eq law (words.functions f mem)) Eq.symm
  simp [ofJson?, number order words.order (by decide), readParents,
    number start words.start (by decide), number last s.last.isLt (by decide),
    number addressPoint words.addressPoint (by decide), readFunctions]

theorem Element.Form.ofJson?_eq {e : Element} {j : Json} (form : e.Form j) :
    ofJson? lib j = some e := by
  cases form with
  | null => simp [ofJson?, law.readUnit]
  | offset value => simp [ofJson?, law.readVariant, law.readSigned]
  | rtti symbol => simp [ofJson?, law.readVariant, law.readString]
  | function symbol => simp [ofJson?, law.readVariant, law.readString]

theorem ClassRecord.Form.ofJson?_eq {r : ClassRecord} {j : Json} (form : r.Form j)
    (words : r.InWords) : ofJson? lib j = some r := by
  obtain @⟨members, name, subVtables, elements, isDefined, -⟩ := form
  have once : Json.Once members fieldNames := by
    simpa [Json.Once, fieldNames] using ⟨name.notTwice, subVtables.notTwice, elements.notTwice,
      isDefined.notTwice⟩
  have readName : lib.field? fieldNames "name" lib.string? none _ = some r.name :=
    law.field?_of_gives (by decide) once name (fun _ form => form ▸ law.readString _) none
  have readSubs : lib.field? fieldNames "sub_vtables" (lib.list? (SubVtable.ofJson? lib)) none _ =
      some r.subVtables :=
    law.field?_of_gives (by decide) once subVtables
      (fun _ lists => law.list?_eq lists fun s mem _ form => form.ofJson?_eq law (words s mem)) none
  have readElements :
      lib.field? fieldNames "elements" (lib.list? (Element.ofJson? lib)) (some []) _ =
        some r.elements :=
    law.field?_of_givesOrOmits (by decide) once elements
      (fun _ lists => law.list?_eq lists fun _ _ _ form => form.ofJson?_eq law) Eq.symm
  have readDefined :
      lib.field? fieldNames "is_defined" lib.bool? (some true) _ = some r.isDefined :=
    law.field?_of_givesOrOmits (by decide) once isDefined
      (fun _ form => form ▸ law.readBool _) Eq.symm
  simp [ofJson?, readName, readSubs, readElements, readDefined]

theorem RecordFileForm.recordsOfJson?_eq {records : List ClassRecord} {j : Json}
    (form : RecordFileForm records j) (words : ∀ r ∈ records, r.InWords) :
    recordsOfJson? lib j = some records := by
  obtain @⟨members, classes, -⟩ := form
  have once : Json.Once members ["classes"] := by simpa [Json.Once] using classes.notTwice
  exact law.field?_of_gives (by decide) once classes (fun _ lists => law.list?_eq lists
    fun r mem _ form => form.ofJson?_eq law (words r mem)) none

theorem readRecords_of_spelledBy {records : List ClassRecord}
    (words : ∀ r ∈ records, r.InWords) {j : Json} (form : RecordFileForm records j)
    {text : String} (spelled : j.SpelledBy text) : readRecords lib text = .ok records := by
  simp only [readRecords, law.read (form.plain words) spelled, Option.bind_some,
    form.recordsOfJson?_eq law words]

/-- Records are read back from every text of every value that stands for them. The compact text
with every field, as it is written, is one of these. -/
theorem readRecords_written {records : List ClassRecord} (words : ∀ r ∈ records, r.InWords) :
    readRecords lib (recordsText lib records) = .ok records ∧
      ∀ j, RecordFileForm records j →
        readRecords lib (lib.compact j) = .ok records ∧
        readRecords lib (lib.indented j) = .ok records ∧
          ∀ text, j.SpelledBy text → readRecords lib text = .ok records := by
  have compact {j : Json} (form : RecordFileForm records j) :
      readRecords lib (lib.compact j) = .ok records :=
    readRecords_of_spelledBy law words form (law.compact (form.plain words))
  refine ⟨compact (recordFileForm_written law words), fun j form => ⟨compact form, ?_, ?_⟩⟩
  · exact readRecords_of_spelledBy law words form (law.indented (form.plain words))
  · exact fun text => readRecords_of_spelledBy law words form

end

namespace Quoted

/-- A class below two others, with a name that has to be escaped or takes two surrogates. -/
def records : List ClassRecord :=
  [⟨"\"\x01😀", [⟨0, .ofList [⟨"A", 0⟩, ⟨"B", 1⟩], 0, 1, 1, []⟩], [.offset (-8), .null], true⟩]

/-- A file for it without the fields that hold their defaults and with a parent listed twice. -/
def file : Json := .obj [("classes", .arr [.obj [
  ("name", .str "\"\x01😀"),
  ("sub_vtables", .arr [.obj [
    ("order", .nat 0),
    ("parents", .arr ([⟨"B", 1⟩, ⟨"A", 0⟩, ⟨"B", 1⟩].map (SubVtableKey.toJson standardJson))),
    ("start", .nat 0), ("end", .nat 1), ("address_point", .nat 1)]]),
  ("elements", .arr [.obj [("offset", .int (-8))], .str "null"])]])]

theorem file_form : RecordFileForm records file := by
  have parents : (KeySet.ofList [⟨"A", 0⟩, ⟨"B", 1⟩]).Form
      (.arr ([⟨"B", 1⟩, ⟨"A", 0⟩, ⟨"B", 1⟩].map (SubVtableKey.toJson standardJson))) :=
    .listing (by simp) (Json.lists_map _ fun k _ =>
      .obj (.once [] _ rfl (by simp) rfl) (.once [_] _ rfl (by simp) rfl)
        (by simp [Json.Beside, SubVtableKey.fieldNames]))
  refine .obj (.once [] _ rfl (by simp) (.arr (.cons ?_ .nil))) (by simp [Json.Beside])
  refine .obj (.once [] _ rfl (by simp) rfl) (.once [_] _ rfl (by simp) (.arr (.cons ?_ .nil)))
    (.given (.once [_, _] _ rfl (by simp) (.arr (.cons (.offset (-8)) (.cons .null .nil)))))
    (.omitted rfl (by simp)) (by simp [Json.Beside, ClassRecord.fieldNames])
  exact .obj (.once [] _ rfl (by simp) rfl) (.given (.once [_] _ rfl (by simp) parents))
    (.once [_, _] _ rfl (by simp) rfl) (.once [_, _, _] _ rfl (by simp) rfl)
    (.once [_, _, _, _] _ rfl (by simp) rfl) (.omitted rfl (by simp))
    (by simp [Json.Beside, SubVtable.fieldNames])

end Quoted

/-- The record is read back from the compact text with every field and from the indented text
without the defaults. -/
theorem quoted_written : standardJson.Documented ∧ (∀ r ∈ Quoted.records, r.InWords) ∧
    readRecords standardJson (recordsText standardJson Quoted.records) = .ok Quoted.records ∧
    readRecords standardJson (standardJson.indented Quoted.file) = .ok Quoted.records := by
  have words : ∀ r ∈ Quoted.records, r.InWords := by
    simp only [Quoted.records, List.mem_singleton, forall_eq, ClassRecord.InWords]
    refine ⟨by decide, ?_, by decide, by decide, by simp⟩
    simp [SubVtableKey.InWords, wordCount]
  have written := readRecords_written standardJson_documented words
  exact ⟨standardJson_documented, words, written.1,
    (written.2 Quoted.file Quoted.file_form).2.1⟩

end VtableCloud
