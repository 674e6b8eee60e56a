import VtableCloud.Json.Standard
import VtableCloud.Proofs.Json.Library
import VtableCloud.Proofs.Json.Printer
import VtableCloud.Proofs.Json.Reader

/-!
# The library that is used behaves as documented
-/

namespace VtableCloud

namespace Json

theorem unsigned?_nat (n : Word) : standardJson.unsigned? (nat n) = some n := by
  have fits : fitsUnsigned (n : Nat) = true := by simp [fitsUnsigned]
  simp [standardJson, nat, unsigned?, fits]

theorem signed?_toInt (value : Int64) : standardJson.signed? (int value.toInt) = some value := by
  have low := value.le_toInt
  have high := value.toInt_lt
  have fits : fitsSigned value.toInt = true := by
    rw [fitsSigned, decide_eq_true_eq, signBit]
    omega
  simp [standardJson, signed?, fits]

variable {α : Type} {names : List String} {name : String} {members : List (String × Json)}

theorem field?_of_absent (read? : Json → Option α) (default : Option α)
    (absent : ∀ m ∈ members, m.1 ≠ name) :
    standardJson.field? names name read? default (obj members) = default := by
  simp [standardJson, field?, filter_of_absent absent]

/-- What stands before the field or behind it does not matter. -/
theorem field?_of_once {j : Json} (read? : Json → Option α) (default : Option α)
    (gives : Gives members name (· = j)) :
    standardJson.field? names name read? default (obj members) = read? j := by
  obtain ⟨_, only, rfl⟩ := gives.filter_eq
  simp [standardJson, field?, only]

end Json

theorem standardJson_documented : standardJson.Documented where
  read _ spelled := spelled.read?_eq
  readUnsigned := Json.unsigned?_nat
  readSigned := Json.signed?_toInt
  readString _ := rfl
  readBool _ := rfl
  readItems _ := rfl
  readGiven read? default _ _ := Json.field?_of_once read? default
  readOmitted read? default _ _ := Json.field?_of_absent read? default
  readUnit _ := rfl
  readVariant _ _ := rfl
  unsigned _ _ := rfl
  signed _ := rfl
  string _ := rfl
  bool _ := rfl
  items _ := rfl
  record _ := rfl
  unit _ := rfl
  variant _ _ := rfl
  compact {j} _ := j.spelledBy_compact
  indented {j} _ := j.spelledBy_indented

end VtableCloud
