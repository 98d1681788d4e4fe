import BeaconHistory.Serial
import BeaconHistory.Toml.Document

/-!
# Spec.Config — specifications from configuration files

A configuration names the constants in a JSON or a TOML document; other fields are ignored, and the
slot of genesis may be left out.  What is read is validated.
-/

namespace BeaconHistory.Spec

-- A constant in a TOML document, if it is there; it has to be a whole number without a minus.
def constant? (fields : Toml.Fields) (constant : Constant) : Option (Option UInt64) :=
  match Toml.find? fields constant.name.toList with
  | none => some none
  | some (.integer n) => if 0 ≤ n then some (some (UInt64.ofNat n.toNat)) else none
  | some _ => none

/-- Reads the fields of a TOML document. -/
def ofToml? (fields : Toml.Fields) : Option Spec := do
  return {
    slotsPerEpoch := ← (← constant? fields .slotsPerEpoch)
    historyLength := ← (← constant? fields .historyLength)
    secondsPerSlot := ← (← constant? fields .secondsPerSlot)
    genesisSlot := (← constant? fields .genesisSlot).getD 0 }

-- Validates what was read.
def validated (malformed : Error) : Option Spec → Except Error Spec
  | none => .error malformed
  | some spec => match spec.validate with
    | .ok () => .ok spec
    | .error e => .error e

-- The specification that a JSON document configures.
def ofJsonText (text : String) : Except Error Spec :=
  validated .malformedJson (Json.decode? text.toList)

-- The specification that a TOML document configures.
def ofTomlText (text : String) : Except Error Spec :=
  validated .malformedToml (Toml.read? text.toList >>= ofToml?)

end BeaconHistory.Spec
