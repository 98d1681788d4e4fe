import BeaconHistory.Frontier.Basic
import BeaconHistory.Query.Chain

/-!
# Frontier.Reading — what the frontier serves

Only entries after the anchor are served; a closed frontier serves nothing.
-/

namespace BeaconHistory.Frontier

variable {σ : Type}

/-! ## 1. Where it stands -/

def opened (f : Frontier σ) : Except Error ForkTree :=
  if f.poisoned then .error .poisoned else .ok f.tree

-- The entry of the canonical head; the anchor, if none was set.
def head (f : Frontier σ) : Except Error Entry := do
  let t ← f.opened
  return .node (← t.snapshot t.head)

def finalized (f : Frontier σ) : Except Error Entry := do
  let t ← f.opened
  return .node (← t.snapshot t.anchor)

def anchor (f : Frontier σ) : Except Error Position := do return (← f.opened).anchor

def size (f : Frontier σ) : Nat := if f.poisoned then 0 else f.tree.size

def isEmpty (f : Frontier σ) : Bool := f.size ≤ 1

/-! ## 2. Lookups -/

def served (f : Frontier σ) : Except Query.Error ForkTree :=
  if f.poisoned then .error (.poisoned .hot) else .ok f.tree

/-- Whether a block after the anchor is held. -/
def containsBlock (f : Frontier σ) (root : Root) : Except Query.Error Bool := do
  return ((← f.served).block? root).isSome

/-- Whether a block is the anchor's or builds on it.  Every finalized block is then its ancestor. -/
def extendsAnchor (f : Frontier σ) (root : Root) : Except Query.Error Bool := do
  return (← f.served).blocks.contains root

def serve (missing : Query.Error) : Option Snapshot → Except Query.Error Entry
  | some snapshot => .ok (.node snapshot)
  | none => .error missing

instance : Chain (Frontier σ) where
  spec := spec
  byStateRoot f root := do serve (.unknownStateRoot root) ((← f.served).byStateRoot? root)
  byBlockRoot f root := do serve (.unknownBlockRoot root) ((← f.served).block? root)
  byPosition f p := do serve (.unknownPosition p) ((← f.served).unfinalized? p)
  closest f root slot := do return .node (← (← f.served).closest root slot)
  ancestry f a b := if f.poisoned then .unknown else f.tree.ancestry a b
  bySlot f slot := do serve (.unknownSlot slot) ((← f.served).canonical? slot)
  span f := do
    let t ← f.served
    return .entries (t.anchor.slot + 1) t.canonicalBranch
  -- The states of a frontier are all in memory.
  files _ := ⟨fun root => .error (.notFound (.state root)), fun slot => .error (.unknownSlot slot)⟩

end BeaconHistory.Frontier
