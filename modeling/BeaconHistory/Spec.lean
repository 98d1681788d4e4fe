import BeaconHistory.Failure

/-!
# Spec — slot and epoch arithmetic

The constants of a chain.  Arithmetic is on 64-bit words and wraps; dividing by a constant that is
zero breaks off, which a validated specification never does.
-/

namespace BeaconHistory

/-- The constants that a specification names, as they are spelled in a configuration. -/
inductive Spec.Constant where
  | slotsPerEpoch
  | historyLength
  | secondsPerSlot
  | genesisSlot
deriving DecidableEq, Repr

def Spec.Constant.name : Spec.Constant → String
  | slotsPerEpoch => "SLOTS_PER_EPOCH"
  | historyLength => "SLOTS_PER_HISTORICAL_ROOT"
  | secondsPerSlot => "SECONDS_PER_SLOT"
  | genesisSlot => "GENESIS_SLOT"

structure Spec where
  slotsPerEpoch : UInt64
  -- Length of the rings of recent block roots and state roots.
  historyLength : UInt64
  secondsPerSlot : UInt64
  genesisSlot : UInt64
deriving DecidableEq, Repr, Inhabited

namespace Spec

def mainnet : Spec := ⟨32, 8192, 12, 0⟩

-- For tests and local networks.
def minimal : Spec := ⟨8, 64, 6, 0⟩

/-- Why a configuration was refused. -/
inductive Error where
  | zeroValue (constant : Constant)
  | malformedToml
  | malformedJson
deriving DecidableEq, Repr

-- The refusal in words; what is wrong with a malformed document is not told.
def Error.message : Error → String
  | zeroValue constant => s!"config value {constant.name} must be greater than zero"
  | malformedToml => "malformed TOML document"
  | malformedJson => "malformed JSON document"

/-- Refuses the first constant, in this order, that has to divide and is zero. -/
def validate (spec : Spec) : Except Error Unit :=
  if spec.slotsPerEpoch = 0 then .error (.zeroValue .slotsPerEpoch)
  else if spec.historyLength = 0 then .error (.zeroValue .historyLength)
  else if spec.secondsPerSlot = 0 then .error (.zeroValue .secondsPerSlot)
  else .ok ()

theorem validate_eq_ok_iff (spec : Spec) :
    spec.validate = .ok () ↔
      spec.slotsPerEpoch ≠ 0 ∧ spec.historyLength ≠ 0 ∧ spec.secondsPerSlot ≠ 0 := by
  unfold validate
  split
  · simp_all
  · split
    · simp_all
    · split <;> simp_all

variable {ε : Type}

def epochOf (spec : Spec) (slot : UInt64) : Outcome ε UInt64 :=
  if spec.slotsPerEpoch = 0 then .breakOff .divisionByZero else .ok (slot / spec.slotsPerEpoch)

def epochStart (spec : Spec) (epoch : UInt64) : UInt64 := epoch * spec.slotsPerEpoch

def isEpochStart (spec : Spec) (slot : UInt64) : Outcome ε Bool :=
  if spec.slotsPerEpoch = 0 then .breakOff .divisionByZero
  else .ok (slot % spec.slotsPerEpoch = 0)

-- The cell of `slot` in the rings of recent roots.
def ringIndex (spec : Spec) (slot : UInt64) : Outcome ε Nat :=
  if spec.historyLength = 0 then .breakOff .divisionByZero
  else .ok (slot % spec.historyLength).toNat

end Spec

end BeaconHistory
