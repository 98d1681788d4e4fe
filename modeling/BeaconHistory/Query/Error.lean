import BeaconHistory.Frontier.Error
import BeaconHistory.Spec

/-!
# Query.Error — why a question about the chain has no answer

A question about an entry that is not there is answered by an error, and one about the ancestors of a
block that is not there by `unknown`.
-/

namespace BeaconHistory

/-- Whether one block is an ancestor of another; `unknown` never means that it is not. -/
inductive Ancestry where
  | unknown
  | ancestor
  | notAncestor
deriving DecidableEq, Repr

namespace Ancestry

def isUnknown : Ancestry → Bool
  | unknown => true
  | _ => false

def isAncestor : Ancestry → Bool
  | ancestor => true
  | _ => false

-- Whether the answer is unknown, and whether it is confirmed.
def parts (a : Ancestry) : Bool × Bool := (a.isUnknown, a.isAncestor)

end Ancestry

/-- The two regions of a chain: unfinalized with forks, and finalized without. -/
inductive Region where
  | hot
  | cold
deriving DecidableEq, Repr

def Region.name : Region → String
  | hot => "hot"
  | cold => "cold"

namespace Query

inductive Error where
  | unknownBlockRoot (root : Root)
  | unknownStateRoot (root : Root)
  | unknownPosition (position : Position)
  | unknownSlot (slot : UInt64)
  -- The block is known, but carried by no entry up to the slot.
  | noCandidate (root : Root) (slot : UInt64)
  -- The block is later than the slot to advance to.
  | targetBeforeBlock (root : Root) (blockSlot target : UInt64)
  -- The slot is not in the range `[start, stop)`.
  | outOfRange (slot start stop : UInt64)
  -- Neither region has an answer.
  | notFound (inHot inCold : Error)
  -- The range of one region could not be opened.
  | range (region : Region) (source : Error)
  | cancelled
  | deadlineExceeded
  | poisoned (region : Region)
  | config (error : Spec.Error)
  | transition (error : Transition.Error)
  | archive (error : Archive.Error)
  | frontier (error : Frontier.Error)
  | ledger (error : Ledger.Error)
deriving DecidableEq

namespace Error

def message : Error → String
  | unknownBlockRoot root => s!"unknown block root {root}"
  | unknownStateRoot root => s!"unknown state root {root}"
  | unknownPosition position => s!"no entry at {position}"
  | unknownSlot slot => s!"no entry at slot {slot}"
  | noCandidate root slot => s!"no entry from block {root} up to slot {slot}"
  | targetBeforeBlock root blockSlot target =>
    s!"block {root} at slot {blockSlot} is past target slot {target}"
  | outOfRange slot start stop => s!"slot {slot} is outside of range [{start}, {stop})"
  | notFound inHot inCold =>
    s!"could not find chain entry in hot or cold chain. Hot: {inHot.message}, Cold: {inCold.message}"
  | range region source => s!"cannot iter {region.name} part: {source.message}"
  | cancelled => "operation cancelled"
  | deadlineExceeded => "operation deadline exceeded"
  | poisoned region => s!"{region.name} chain lock poisoned"
  | config error => error.message
  | transition error => error.message
  | archive error => error.message
  | frontier error => error.message
  | ledger error => error.message

-- Whether the operation was interrupted, and may succeed when it is tried again.
def isInterrupted : Error → Bool
  | cancelled | deadlineExceeded => true
  | _ => false

def isNotFound : Error → Bool
  | unknownBlockRoot _ | unknownStateRoot _ | unknownPosition _ | unknownSlot _ | noCandidate _ _ => true
  | notFound inHot inCold => inHot.isNotFound && inCold.isNotFound
  | _ => false

end Error

end Query

end BeaconHistory
