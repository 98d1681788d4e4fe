import BeaconHistory.Duties

/-!
# Transition — advancing a state and applying blocks

A state leaves a slot by recording the roots of its block and of itself in the rings.  A block is
applied to a state of its own slot, if it is newer than the latest block, comes from the drawn
proposer, and builds on the latest block; its state root is compared with the state it leads to.
A transition that fails leaves the state where it stopped.
-/

namespace BeaconHistory

abbrev Transition (α : Type) := Operation Transition.Error State α

namespace State

/-! ## 1. Slots -/

-- Writes `root` into the cell `index` of a ring.
def writeRing {ε : Type} (ring : List Root) (index : Nat) (root : Root) : Outcome ε (List Root) :=
  if index < ring.length then .ok (ring.set index root) else .breakOff .indexOutOfBounds

/-- Records the roots of the current slot and moves to the next one. -/
def leaveSlot (spec : Spec) (s : State) : Outcome Transition.Error State := do
  let stateRoot := s.root
  let header := s.sealedHeader stateRoot
  let index ← spec.ringIndex s.slot
  let stateRoots ← writeRing s.stateRoots index stateRoot
  let blockRoots ← writeRing s.blockRoots index header.root
  return { s with
    slot := s.slot + 1
    latestHeader := header
    blockRoots := blockRoots
    stateRoots := stateRoots }

def leaveSlots (spec : Spec) : Nat → State → Outcome Transition.Error State
  | 0, s => .ok s
  | n + 1, s => do leaveSlots spec n (← s.leaveSlot spec)

def ringsFit (spec : Spec) (s : State) : Bool :=
  s.blockRoots.length = spec.historyLength.toNat && s.stateRoots.length = spec.historyLength.toNat

/-- The state advanced through empty slots to `target`. -/
def advanced (spec : Spec) (target : UInt64) (s : State) : Outcome Transition.Error State :=
  if target ≤ s.slot then .refuse (.slotNotAhead s.slot target)
  else if s.ringsFit spec then s.leaveSlots spec (target.toNat - s.slot.toNat)
  else .refuse (.historyLength spec.historyLength (min s.blockRoots.length s.stateRoots.length))

/-! ## 2. Blocks -/

/-- The proposer drawn for `slot` by the duties of the state. -/
def expectedProposer (spec : Spec) (slot : UInt64) (s : State) : Outcome Transition.Error UInt64 := do
  (← Duties.ofState spec s).proposer slot

-- The state of the block's slot with the block's header as its latest.
def withHeader (spec : Spec) (b : Block) (s : State) : Outcome Transition.Error State := do
  if b.slot ≠ s.slot then .refuse (.slotMismatch s.slot b.slot)
  if b.slot ≤ s.latestHeader.slot then .refuse (.blockNotNewer s.latestHeader.slot b.slot)
  let expected ← s.expectedProposer spec b.slot
  if b.proposerIndex ≠ expected then .refuse (.proposerMismatch expected b.proposerIndex)
  -- The header of the parent is still in the state, and is overwritten only below.
  let parent := s.latestBlockRoot
  if b.parentRoot ≠ parent then .refuse (.parentRootMismatch parent b.parentRoot)
  return { s with latestHeader := { b.toHeader with stateRoot := .zero } }

end State

namespace Transition

-- Replaces the state by one computed from it; a failure leaves it unchanged.
def become (next : State → Outcome Error State) : Transition Unit := fun s =>
  match next s with
  | .ok t => .ok () t
  | .error e => .error e s

def processSlots (spec : Spec) (target : UInt64) : Transition Unit := become (State.advanced spec target)

def processHeader (spec : Spec) (b : Block) : Transition Unit := become (State.withHeader spec b)

/-- Advances to the slot of `b`, applies its header, and compares the root of the state reached with
the one that the block names. -/
def applyBlock (spec : Spec) (b : Block) : Transition Unit := do
  if b.slot > (← get).slot then processSlots spec b.slot
  processHeader spec b
  let computed := (← get).root
  if computed ≠ b.stateRoot then .refuse (.stateRootMismatch b.stateRoot computed)

end Transition

namespace State

/-- The state as it stands right before a block of `slot` is applied. -/
def atSlot (spec : Spec) (slot : UInt64) (s : State) : Outcome Transition.Error State :=
  if slot > s.slot then s.advanced spec slot else .ok s

/-- The block that the drawn proposer publishes at `slot` on top of the state. -/
def produceBlock (spec : Spec) (slot : UInt64) (bodyRoot : Root) (s : State) :
    Outcome Transition.Error Block := do
  let s ← s.atSlot spec slot
  let proposer ← s.expectedProposer spec slot
  -- The state root of a header does not enter the state it leads to, so a draft without one will do.
  let draft : Block := ⟨slot, proposer, s.latestBlockRoot, .zero, bodyRoot⟩
  let post ← s.withHeader spec draft
  return { draft with stateRoot := post.root }

/-! ## 3. Roots of earlier blocks -/

/-- The root of the latest block at `slot`, for an earlier slot that the ring still covers. -/
def blockRootAt (spec : Spec) (slot : UInt64) (s : State) : Outcome Transition.Error Root :=
  if s.slot ≤ slot ∨ slot + spec.historyLength < s.slot then .refuse (.rootOutOfRange slot s.slot)
  else do
    let index ← spec.ringIndex slot
    match s.blockRoots[index]? with
    | some root => return root
    | none => .refuse (.rootOutOfRange slot s.slot)

end State

end BeaconHistory
