import BeaconHistory.ForkTree.Basic
import BeaconHistory.Transition

/-!
# ForkTree.Growth — adding blocks and the empty slots before them

A block is applied to the snapshot of its parent, advanced to the slot of the block.  The empty slots
passed on the way become nodes and stay, also when the block is refused.
-/

namespace BeaconHistory.ForkTree

abbrev Growth (α : Type) := Operation Frontier.Error ForkTree α

/-- Adds a node under its own position. -/
def insert (t : ForkTree) (entry : Snapshot) (parent : Position) : ForkTree :=
  { t with
    states := t.states.insert entry.summary.stateRoot entry.position
    blocks :=
      if entry.summary.isEmpty then t.blocks
      else t.blocks.insert entry.position.root entry.position
    nodes := t.nodes.insert entry.position ⟨entry, some parent⟩ }

/-- The snapshot of the empty slot after the one at `tip`. -/
def emptyAfter (tip : Position) (t : ForkTree) : Outcome Frontier.Error Snapshot := do
  let entry ← Outcome.ofExcept (t.snapshot tip)
  let state ← (entry.state.advanced t.spec (following tip).slot).mapReason .transition
  return .ofState t.spec state

-- Makes the empty slot after `tip` a node, if it is none.
def extendOnce (tip : Position) : Growth Position := fun t =>
  if t.nodes.contains (following tip) then .ok (following tip) t
  else match emptyAfter tip t with
    | .ok entry => .ok (following tip) (t.insert entry tip)
    | .error e => .error e t

/-- Makes a count of empty slots after `tip` nodes, and gives the last one. -/
def extend : Nat → Position → Growth Position
  | 0, tip => pure tip
  | n + 1, tip => do extend n (← extendOnce tip)

/-- Makes the empty slots after `tip` up to `slot` nodes, and gives the last one. -/
def extendTo (tip : Position) (slot : UInt64) : Growth Position :=
  extend (slot.toNat - tip.slot.toNat) tip

-- The snapshot after block `b`, applied to the snapshot at `pre`.
def applied (b : Block) (pre : Position) (t : ForkTree) : Outcome Frontier.Error Snapshot := do
  let entry ← Outcome.ofExcept (t.snapshot pre)
  let state ← ((Transition.applyBlock t.spec b).reach entry.state).mapReason .transition
  return .ofState t.spec state

/-- Adds block `b` on top of the parent at `parent`. -/
def insertOn (b : Block) (parent : Position) : Growth Snapshot := do
  let tip ← extendTo parent (b.slot - 1)
  -- The empty slot at the slot of the block holds the state that the block is applied to; the block
  -- itself links to the slot before.
  let pre ← extendTo tip b.slot
  let post ← Operation.ofOutcome (applied b pre)
  modify (·.insert post tip)
  return post

/-- Adds a block; a block that is held already is given back. -/
def insertBlock (b : Block) : Growth Snapshot := do
  let t ← get
  if b.slot ≤ t.anchor.slot then Operation.refuse (.notAfterAnchor b.slot t.anchor.slot)
  else match t.block? b.root with
    | some entry => return entry
    | none => match t.blocks[b.parentRoot]? with
      | none => Operation.refuse (.unknownParent b.slot b.parentRoot)
      | some parent =>
        if b.slot ≤ parent.slot then Operation.refuse (.slotNotAfterParent b.slot parent.slot)
        else insertOn b parent

/-- Makes the empty slots of block `root` up to `slot` nodes. -/
def reachSlot (root : Root) (slot : UInt64) : Growth Unit := do
  match (← get).blocks[root]? with
  | none => Operation.refuse (.unknownBlock root)
  | some p => discard (extendTo p slot)

/-- Points the head at a block. -/
def setHead (root : Root) : Growth Unit := do
  let t ← get
  match t.blocks[root]? with
  | none => Operation.refuse (.unknownBlock root)
  | some p => set { t with head := p }

end BeaconHistory.ForkTree
