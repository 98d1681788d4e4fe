import BeaconHistory.Archive
import BeaconHistory.Duties
import BeaconHistory.Position

/-!
# Frontier.Error — why a region did not change

The finalized region is the sink of the unfinalized one, which passes on why an entry was rejected.
-/

namespace BeaconHistory.Ledger

/-- The finalized region grows by exactly one linked slot at a time. -/
inductive Error where
  -- The entry is not at the next slot.
  | nonSequential (expected got : UInt64)
  -- The entry does not build on the latest one.
  | discontinuity (slot : UInt64) (expected got : Root)
  | archive (error : Archive.Error)
  | poisoned
deriving DecidableEq

def Error.message : Error → String
  | nonSequential expected got => s!"expected finalized entry at slot {expected}, got slot {got}"
  | discontinuity slot expected got => s!"entry at slot {slot} links to {got}, expected {expected}"
  | archive error => error.message
  | poisoned => "cold chain lock poisoned"

end BeaconHistory.Ledger

namespace BeaconHistory.Frontier

/-- What a sink says of an entry that it does not take. -/
inductive Rejection where
  | ledger (error : Ledger.Error)
  | other (text : String)
deriving DecidableEq

def Rejection.message : Rejection → String
  | ledger error => error.message
  | other text => text

inductive Error where
  -- The block at `slot` names a parent that is not held.
  | unknownParent (slot : UInt64) (parentRoot : Root)
  | unknownBlock (root : Root)
  | unknownEntry (position : Position)
  | slotNotAfterParent (slot parentSlot : UInt64)
  | notAfterAnchor (slot anchorSlot : UInt64)
  | notDescendant (position anchor : Position)
  -- The target disagrees with the entry finalized at its slot.
  | conflictsWithFinalized (position finalized : Position)
  | transition (error : Transition.Error)
  -- The sink rejected the entry, which stays.
  | sink (position : Position) (rejection : Rejection)
  | poisoned
deriving DecidableEq

def Error.message : Error → String
  | unknownParent slot parentRoot => s!"unknown parent {parentRoot} of block at slot {slot}"
  | unknownBlock root => s!"unknown block {root}"
  | unknownEntry position => s!"unknown entry {position}"
  | slotNotAfterParent slot parentSlot => s!"block slot {slot} is not after parent slot {parentSlot}"
  | notAfterAnchor slot anchorSlot => s!"block slot {slot} is not after anchor slot {anchorSlot}"
  | notDescendant position anchor => s!"{position} does not descend from anchor {anchor}"
  | conflictsWithFinalized position finalized =>
    s!"finalization target {position} conflicts with finalized {finalized}"
  | transition error => error.message
  | sink position rejection => s!"finalization sink rejected {position}: {rejection.message}"
  | poisoned => "hot chain lock poisoned"

end BeaconHistory.Frontier
