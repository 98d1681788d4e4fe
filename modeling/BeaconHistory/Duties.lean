import BeaconHistory.State

/-!
# Duties — who proposes in an epoch

The proposer of a slot is drawn from the randomness of the state and the slot.  The duties of a state
cover its epoch; where the end of the epoch wraps past the last slot, they cover nothing.
-/

namespace BeaconHistory

/-- Why a state could not be advanced, a block not applied, or a root not told. -/
inductive Transition.Error where
  | slotNotAhead (current target : UInt64)
  | slotMismatch (state block : UInt64)
  | blockNotNewer (latest block : UInt64)
  | proposerMismatch (expected got : UInt64)
  | parentRootMismatch (expected got : Root)
  | stateRootMismatch (block computed : Root)
  | historyLength (expected : UInt64) (got : Nat)
  | noValidators
  | slotOutsideEpoch (slot epoch : UInt64)
  | rootOutOfRange (slot state : UInt64)
deriving DecidableEq

def Transition.Error.message : Transition.Error → String
  | slotNotAhead current target =>
    s!"cannot process slots from {current} to {target}: target must be ahead"
  | slotMismatch state block => s!"block slot {block} does not match state slot {state}"
  | blockNotNewer latest block => s!"block slot {block} is not newer than latest header slot {latest}"
  | proposerMismatch expected got => s!"expected proposer {expected}, block has {got}"
  | parentRootMismatch expected got => s!"expected parent root {expected}, block has {got}"
  | stateRootMismatch block computed =>
    s!"block state root {block} does not match computed post-state root {computed}"
  | historyLength expected got =>
    s!"historical roots length {got} does not match SLOTS_PER_HISTORICAL_ROOT {expected}"
  | noValidators => "state has no validators"
  | slotOutsideEpoch slot epoch => s!"slot {slot} is outside of epoch {epoch}"
  | rootOutOfRange slot state =>
    s!"block root at slot {slot} is not available from state at slot {state}"

structure Duties where
  epoch : UInt64
  startSlot : UInt64
  -- Proposers of the slots from `startSlot` on.
  proposers : List UInt64
deriving DecidableEq

namespace Duties

-- The validator drawn for `slot` out of `validatorCount`.
def draw (randaoMix : Root) (validatorCount slot : UInt64) : UInt64 :=
  Bytes.toWord (Root.commit (randaoMix.bytes ++ Bytes.ofWord slot)).bytes % validatorCount

-- The slots from `start` up to, and without, `stop`.
def slotsBetween (start stop : UInt64) : List UInt64 :=
  (List.range (stop.toNat - start.toNat)).map fun i => start + UInt64.ofNat i

-- The duties of the epoch of `s`.
def ofState (spec : Spec) (s : State) : Outcome Transition.Error Duties := do
  if s.validatorCount = 0 then .refuse .noValidators
  let epoch ← spec.epochOf s.slot
  let start := spec.epochStart epoch
  return {
    epoch := epoch
    startSlot := start
    proposers := (slotsBetween start (start + spec.slotsPerEpoch)).map
      (draw s.randaoMix s.validatorCount) }

-- The proposer of `slot`, if the duties cover it.
def proposer? (d : Duties) (slot : UInt64) : Option UInt64 :=
  if slot < d.startSlot then none else d.proposers[(slot - d.startSlot).toNat]?

def proposer (d : Duties) (slot : UInt64) : Outcome Transition.Error UInt64 :=
  match d.proposer? slot with
  | some validator => .ok validator
  | none => .refuse (.slotOutsideEpoch slot d.epoch)

end Duties

end BeaconHistory
