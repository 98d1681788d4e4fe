import BeaconHistory.Block
import BeaconHistory.Spec

/-!
# State — what a chain knows at a slot

A state holds its slot, the header of its latest block, and two rings with the roots of recent blocks
and states, the root of slot `s` in cell `s % historyLength`.
-/

namespace BeaconHistory

structure State where
  slot : UInt64
  latestHeader : Header
  blockRoots : List Root
  stateRoots : List Root
  -- Randomness that the choice of proposers depends on.
  randaoMix : Root
  validatorCount : UInt64
deriving DecidableEq, Inhabited

namespace State

def genesis (spec : Spec) (validatorCount : UInt64) (randaoMix : Root) : State where
  slot := spec.genesisSlot
  latestHeader := { Header.zero with slot := spec.genesisSlot, bodyRoot := .commit [] }
  blockRoots := List.replicate spec.historyLength.toNat .zero
  stateRoots := List.replicate spec.historyLength.toNat .zero
  randaoMix := randaoMix
  validatorCount := validatorCount

-- One root for a list of roots.
def commitRing (ring : List Root) : Root := .commit (ring.flatMap Root.bytes)

/-- The bytes a state commits to. -/
def preimage (s : State) : List UInt8 :=
  Bytes.ofWord s.slot ++ s.latestHeader.root.bytes ++ (commitRing s.blockRoots).bytes ++
    (commitRing s.stateRoots).bytes ++ s.randaoMix.bytes ++ Bytes.ofWord s.validatorCount

def root (s : State) : Root := .commit s.preimage

/-- The latest header with its state root filled in: until the slot of the block is left, it is the
root of this state, here given as `stateRoot`. -/
@[inline] def sealedHeader (s : State) (stateRoot : Root) : Header :=
  if s.latestHeader.stateRoot = .zero then { s.latestHeader with stateRoot := stateRoot }
  else s.latestHeader

def latestBlockRoot (s : State) : Root := (s.sealedHeader s.root).root

def hasBlockAtSlot (s : State) : Bool := s.latestHeader.slot = s.slot

end State

end BeaconHistory
