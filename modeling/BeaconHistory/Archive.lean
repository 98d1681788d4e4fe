import BeaconHistory.Failure
import BeaconHistory.Snapshot

/-!
# Archive — where finalized states are kept

An archive files states under their roots, and binds each position to the root of its state.
-/

namespace BeaconHistory

/-- What an archive was asked for and does not hold. -/
inductive Archive.Missing where
  | state (root : Root)
  | position (position : Position)
  | other (what : String)
deriving DecidableEq

/-- What a write would have overwritten. -/
inductive Archive.Clash where
  | position (position : Position) (boundTo : Root)
  | other (what : String)
deriving DecidableEq

inductive Archive.Error where
  | notFound (what : Missing)
  | conflict (clash : Clash)
  | poisoned
deriving DecidableEq

namespace Archive

def Missing.message : Missing → String
  | state root => s!"state {root}"
  | position p => s!"position {p}"
  | other what => what

def Clash.message : Clash → String
  | position p boundTo => s!"{p} is bound to state {boundTo}"
  | other what => what

def Error.message : Error → String
  | notFound what => s!"entry not found: {what.message}"
  | conflict clash => s!"conflict error: {clash.message}"
  | poisoned => "state store lock poisoned"

end Archive

/-- Writing may be refused or break off; reading may be refused. -/
class Archive (τ : Type) where
  -- Files a state under a root and binds a position to that root.
  put : Position → Root → State → Operation Archive.Error τ Unit
  -- The state filed under a root.
  get : τ → Root → Except Archive.Error State
  -- The root bound to a position.
  rootAt : τ → Position → Except Archive.Error Root
  -- Whether a state is filed under a root.
  contains : τ → Root → Except Archive.Error Bool

end BeaconHistory
