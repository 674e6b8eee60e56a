import Mathlib.Data.List.Forall2
import VtableCloud.Json.Library
import VtableCloud.Proofs.Json.Spelling

/-!
# What is known of the library of JSON

Nothing is used of the library but how its readers and writers are documented to behave: what
JSON value stands for a value of each type, and which texts a value has.

* `Json.Gives`, `Json.Lists`: an object that gives a field, in any order and beside others, and
  an array that stands for a list;
* `Json.Plain`: the values that the library reads exactly and without giving up, and
  `plain_of_beside`: an object is one if its known fields hold such values and the others do;
* `JsonLibrary.Documented`: how its readers and writers behave;
* `Documented.field?_of_gives`, `Documented.field?_of_givesOrOmits`, `Documented.list?_eq`: what
  is read of the fields and the items of such values.
-/

namespace VtableCloud

namespace Json

/-- The members of an object give a field once, with a value of a form. -/
inductive Gives (members : List (String × Json)) (name : String) (Form : Json → Prop) : Prop
  | once (before behind : List (String × Json)) {j : Json}
      (split : members = before ++ (name, j) :: behind)
      (only : ∀ m ∈ before ++ behind, m.1 ≠ name) (form : Form j) : Gives members name Form

/-- A field that may be left out if it holds its default. -/
inductive GivesOrOmits (members : List (String × Json)) (name : String) (Form : Json → Prop)
    (isDefault : Prop) : Prop
  | given (gives : Gives members name Form) : GivesOrOmits members name Form isDefault
  | omitted (default : isDefault) (absent : ∀ m ∈ members, m.1 ≠ name) :
      GivesOrOmits members name Form isDefault

/-- No known field of an object is given twice. -/
def Once (members : List (String × Json)) (names : List String) : Prop :=
  ∀ name ∈ names, (members.filter (·.1 == name)).length ≤ 1

section Object

variable {members : List (String × Json)} {name : String} {Form : Json → Prop} {isDefault : Prop}

theorem filter_of_absent (absent : ∀ m ∈ members, m.1 ≠ name) :
    members.filter (·.1 == name) = [] := by
  simpa [List.filter_eq_nil_iff] using absent

theorem Gives.filter_eq (gives : Gives members name Form) :
    ∃ j, members.filter (·.1 == name) = [(name, j)] ∧ Form j := by
  obtain ⟨before, behind, rfl, only, form⟩ := gives
  have front := filter_of_absent fun m mem => only m (List.mem_append_left behind mem)
  have back := filter_of_absent fun m mem => only m (List.mem_append_right before mem)
  exact ⟨_, by simp [front, back], form⟩

theorem Gives.notTwice (gives : Gives members name Form) :
    (members.filter (·.1 == name)).length ≤ 1 := by
  obtain ⟨j, only, -⟩ := gives.filter_eq
  simp [only]

theorem GivesOrOmits.notTwice (gives : GivesOrOmits members name Form isDefault) :
    (members.filter (·.1 == name)).length ≤ 1 := by
  cases gives with
  | given gives => exact gives.notTwice
  | omitted _ absent => simp [filter_of_absent absent]

end Object

/-- An array with one value for each element of a list, in order. -/
inductive Lists {α : Type} (Form : α → Json → Prop) (xs : List α) : Json → Prop
  | arr {js : List Json} (items : List.Forall₂ Form xs js) : Lists Form xs (.arr js)

theorem lists_map {α : Type} {Form : α → Json → Prop} {xs : List α} (toJson : α → Json)
    (forms : ∀ x ∈ xs, Form x (toJson x)) : Lists Form xs (.arr (xs.map toJson)) :=
  .arr (List.forall₂_map_right_iff.mpr (List.forall₂_same.mpr forms))

/-- A value that is nested no deeper than so, and in which all numbers are machine words. -/
inductive Plain : Nat → Json → Prop
  | null {depth : Nat} : Plain depth .null
  | bool {depth : Nat} (value : Bool) : Plain depth (.bool value)
  | int {depth : Nat} {value : Int}
      (word : fitsUnsigned value = true ∨ fitsSigned value = true) : Plain depth (.int value)
  | str {depth : Nat} (value : String) : Plain depth (.str value)
  | arr {depth : Nat} {items : List Json} (each : ∀ j ∈ items, Plain depth j) :
      Plain (depth + 1) (.arr items)
  | obj {depth : Nat} {members : List (String × Json)} (each : ∀ m ∈ members, Plain depth m.2) :
      Plain (depth + 1) (.obj members)

theorem plain_nat {depth n : Nat} (word : n < wordCount) : Plain depth (nat n) :=
  .int (.inl (by simp [fitsUnsigned, word]))

theorem plain_toInt {depth : Nat} (value : Int64) : Plain depth (int value.toInt) := by
  have low := value.le_toInt
  have high := value.toInt_lt
  refine .int (.inr ?_)
  rw [fitsSigned, decide_eq_true_eq, signBit]
  omega

/-- What may be nested less deeply may be nested more deeply. -/
theorem Plain.mono {depth depth' : Nat} {j : Json} (plain : Plain depth j) (le : depth ≤ depth') :
    Plain depth' j := by
  induction plain generalizing depth' with
  | null => exact .null
  | bool value => exact .bool value
  | int word => exact .int word
  | str value => exact .str value
  | arr _ ih =>
    obtain ⟨depth', rfl⟩ := Nat.exists_eq_add_one_of_ne_zero (Nat.ne_zero_of_lt le)
    exact .arr fun j hj => ih j hj (Nat.le_of_lt_succ le)
  | obj _ ih =>
    obtain ⟨depth', rfl⟩ := Nat.exists_eq_add_one_of_ne_zero (Nat.ne_zero_of_lt le)
    exact .obj fun m hm => ih m hm (Nat.le_of_lt_succ le)

theorem Lists.plain {α : Type} {Form : α → Json → Prop} {xs : List α} {depth : Nat} {j : Json}
    (lists : Lists Form xs j) (each : ∀ x ∈ xs, ∀ j, Form x j → Plain depth j) :
    Plain (depth + 1) j := by
  obtain ⟨items⟩ := lists
  refine .arr ?_
  induction items with
  | nil => simp
  | cons form _ ih =>
    obtain ⟨head, tail⟩ := List.forall_mem_cons.mp each
    exact List.forall_mem_cons.mpr ⟨head _ form, ih tail⟩

theorem Gives.plain {members : List (String × Json)} {name : String} {Form : Json → Prop}
    {depth : Nat} (gives : Gives members name Form) (each : ∀ j, Form j → Plain depth j) :
    ∀ m ∈ members, m.1 = name → Plain depth m.2 := by
  obtain ⟨j, only, form⟩ := gives.filter_eq
  intro m mem eq
  have found : m ∈ members.filter (·.1 == name) := List.mem_filter.mpr ⟨mem, by simp [eq]⟩
  rw [only, List.mem_singleton] at found
  exact found ▸ each j form

theorem GivesOrOmits.plain {members : List (String × Json)} {name : String} {Form : Json → Prop}
    {isDefault : Prop} {depth : Nat} (gives : GivesOrOmits members name Form isDefault)
    (each : ∀ j, Form j → Plain depth j) : ∀ m ∈ members, m.1 = name → Plain depth m.2 := by
  cases gives with
  | given gives => exact gives.plain each
  | omitted _ absent => exact fun m mem eq => absurd eq (absent m mem)

/-- The fields of an object beside the known ones hold values that are nested no deeper than so. -/
def Beside (members : List (String × Json)) (names : List String) (depth : Nat) : Prop :=
  ∀ m ∈ members, m.1 ∉ names → Plain depth m.2

theorem plain_of_beside {members : List (String × Json)} {names : List String} {depth depth' : Nat}
    (beside : Beside members names depth) (le : depth ≤ depth')
    (known : ∀ name ∈ names, ∀ m ∈ members, m.1 = name → Plain depth' m.2) :
    Plain (depth' + 1) (obj members) :=
  .obj fun m hm =>
    if inside : m.1 ∈ names then known m.1 inside m hm rfl else (beside m hm inside).mono le

end Json

namespace JsonLibrary

/-- How deep a value may be nested for a text of it to be read. -/
def nestingLimit : Nat := 127

/-- How the library is documented to behave. A text is read as the value that it is a text of.
A field may stand anywhere in an object, beside unknown ones, if no known field is given twice. -/
structure Documented (lib : JsonLibrary) : Prop where
  read : ∀ {j : Json} {text : String}, j.Plain nestingLimit → j.SpelledBy text →
    lib.read? text = some j
  readUnsigned : ∀ n : Word, lib.unsigned? (.nat n) = some n
  readSigned : ∀ i : Int64, lib.signed? (.int i.toInt) = some i
  readString : ∀ s : String, lib.string? (.str s) = some s
  readBool : ∀ b : Bool, lib.bool? (.bool b) = some b
  readItems : ∀ items : List Json, lib.items? (.arr items) = some items
  readGiven : ∀ {α : Type} {names : List String} {name : String} {members : List (String × Json)}
    {j : Json} (read? : Json → Option α) (default : Option α), name ∈ names →
    Json.Once members names → Json.Gives members name (· = j) →
    lib.field? names name read? default (.obj members) = read? j
  readOmitted : ∀ {α : Type} {names : List String} {name : String}
    {members : List (String × Json)} (read? : Json → Option α) (default : Option α),
    name ∈ names → Json.Once members names → (∀ m ∈ members, m.1 ≠ name) →
    lib.field? names name read? default (.obj members) = default
  readUnit : ∀ name : String, lib.variant? (.str name) = some (name, none)
  readVariant : ∀ (name : String) (j : Json), lib.variant? (.obj [(name, j)]) = some (name, some j)
  unsigned : ∀ n < wordCount, lib.unsigned n = .nat n
  signed : ∀ i : Int64, lib.signed i = .int i.toInt
  string : ∀ s : String, lib.string s = .str s
  bool : ∀ b : Bool, lib.bool b = .bool b
  items : ∀ items : List Json, lib.items items = .arr items
  record : ∀ members : List (String × Json), lib.record members = .obj members
  unit : ∀ name : String, lib.variant name none = .str name
  variant : ∀ (name : String) (j : Json), lib.variant name (some j) = .obj [(name, j)]
  compact : ∀ {j : Json}, j.Plain nestingLimit → j.SpelledBy (lib.compact j)
  indented : ∀ {j : Json}, j.Plain nestingLimit → j.SpelledBy (lib.indented j)

namespace Documented

variable {lib : JsonLibrary} {α : Type} {names : List String} {name : String}
  {members : List (String × Json)} {Form : Json → Prop} {read? : Json → Option α} {x : α}

/-- A field that is given is read, whether or not it has to be there. -/
theorem field?_of_gives (law : lib.Documented) (known : name ∈ names)
    (once : Json.Once members names) (gives : Json.Gives members name Form)
    (reads : ∀ j, Form j → read? j = some x) (default : Option α) :
    lib.field? names name read? default (.obj members) = some x := by
  obtain ⟨before, behind, split, only, form⟩ := gives
  rw [law.readGiven read? default known once (.once before behind split only rfl), reads _ form]

theorem field?_of_givesOrOmits (law : lib.Documented) (known : name ∈ names)
    (once : Json.Once members names) {isDefault : Prop} {default : α}
    (gives : Json.GivesOrOmits members name Form isDefault)
    (reads : ∀ j, Form j → read? j = some x) (same : isDefault → default = x) :
    lib.field? names name read? (some default) (.obj members) = some x := by
  cases gives with
  | given gives => exact law.field?_of_gives known once gives reads (some default)
  | omitted holds absent =>
    rw [law.readOmitted read? (some default) known once absent, same holds]

theorem list?_eq (law : lib.Documented) {Form : α → Json → Prop} {xs : List α} {j : Json}
    (lists : Json.Lists Form xs j) (reads : ∀ x ∈ xs, ∀ j, Form x j → read? j = some x) :
    lib.list? read? j = some xs := by
  obtain ⟨items⟩ := lists
  rw [list?, law.readItems]
  show List.mapM read? _ = some xs
  induction items with
  | nil => rfl
  | cons form _ ih =>
    obtain ⟨head, tail⟩ := List.forall_mem_cons.mp reads
    rw [List.mapM_cons, head _ form, ih tail]
    rfl

theorem readNat (law : lib.Documented) {n : Nat} (word : n < wordCount) :
    lib.unsigned? (.nat n) = some ⟨n, word⟩ := law.readUnsigned ⟨n, word⟩

end Documented

end JsonLibrary

end VtableCloud
