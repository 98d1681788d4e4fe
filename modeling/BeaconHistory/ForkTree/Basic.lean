import BeaconHistory.Query.Error

/-!
# ForkTree — the snapshots built since the anchor

Every slot between the anchor and a block is present, so a node links to the node exactly one slot
before it, and the empty slots of a block form a run of positions with its root.  The run of a parent
also covers the slot of each child block: that snapshot is the state before the child is applied.

The anchor is the latest finalized entry.  It is the root of the tree, and is not served by lookups.
-/

namespace BeaconHistory

structure ForkTree.Node where
  entry : Snapshot
  -- The node at the slot before, on the same branch; the anchor has none.
  parent : Option Position

structure ForkTree where
  spec : Spec
  anchor : Position
  head : Position
  nodes : Std.ExtTreeMap Position ForkTree.Node
  -- The position of each block, and of the block that the anchor carries.
  blocks : Std.ExtTreeMap Root Position
  states : Std.ExtTreeMap Root Position

namespace ForkTree

/-- The tree that consists of its anchor. -/
def plant (spec : Spec) (anchor : Snapshot) : ForkTree where
  spec := spec
  anchor := anchor.position
  head := anchor.position
  nodes := (∅ : Std.ExtTreeMap Position Node).insert anchor.position ⟨anchor, none⟩
  blocks := (∅ : Std.ExtTreeMap Root Position).insert anchor.position.root anchor.position
  states := (∅ : Std.ExtTreeMap Root Position).insert anchor.summary.stateRoot anchor.position

def size (t : ForkTree) : Nat := t.nodes.size

/-! ## 1. Single entries -/

-- The snapshot at a position, be it the anchor.
def snapshot? (t : ForkTree) (p : Position) : Option Snapshot := t.nodes[p]?.map Node.entry

def snapshot (t : ForkTree) (p : Position) : Except Frontier.Error Snapshot :=
  match t.snapshot? p with
  | some entry => .ok entry
  | none => .error (.unknownEntry p)

-- The snapshot at a position after the anchor.
def unfinalized? (t : ForkTree) (p : Position) : Option Snapshot :=
  if t.anchor.slot < p.slot then t.snapshot? p else none

-- The snapshot of a block after the anchor.
def block? (t : ForkTree) (root : Root) : Option Snapshot := t.blocks[root]?.bind t.unfinalized?

/-- The snapshot after the anchor with a given state root. -/
def byStateRoot? (t : ForkTree) (root : Root) : Option Snapshot := t.states[root]?.bind t.unfinalized?

/-! ## 2. Walks towards the anchor -/

def parent? (t : ForkTree) (p : Position) : Option Position := t.nodes[p]?.bind Node.parent

-- The position reached from `p` by a count of steps to the parent.
def climb (t : ForkTree) : Nat → Position → Option Position
  | 0, p => some p
  | n + 1, p => (t.parent? p).bind (t.climb n)

/-- The snapshot at `slot` on the branch of the head. -/
def canonical? (t : ForkTree) (slot : UInt64) : Option Snapshot :=
  if slot ≤ t.anchor.slot ∨ t.head.slot < slot then none
  else (t.climb (t.head.slot.toNat - slot.toNat) t.head).bind t.snapshot?

/-- The snapshots from `p` back to the anchor, which is left out, in front of `later`; it stops after
a count of steps and where a link is missing. -/
def backFrom (t : ForkTree) : Nat → Position → List Snapshot → List Snapshot
  | 0, _, later => later
  | n + 1, p, later =>
    if p = t.anchor then later
    else match t.nodes[p]? with
      | none => later
      | some node => match node.parent with
        | none => node.entry :: later
        | some q => t.backFrom n q (node.entry :: later)

/-- The snapshots after the anchor on the branch of the head, by increasing slot. -/
def canonicalBranch (t : ForkTree) : List Snapshot :=
  t.backFrom (t.head.slot.toNat - t.anchor.slot.toNat) t.head []

/-- Whether block `a` is an ancestor of block `b`, the anchor's block included. -/
def ancestry (t : ForkTree) (a b : Root) : Ancestry :=
  if a = b then .notAncestor
  else match t.blocks[a]?, t.blocks[b]? with
    | some p, some q =>
      if p.slot < q.slot ∧ t.climb (q.slot.toNat - p.slot.toNat) q = some p then .ancestor
      else .notAncestor
    | _, _ => .unknown

/-! ## 3. Runs of empty slots -/

/-- The position one slot later that carries the same block. -/
def following (p : Position) : Position := ⟨p.slot + 1, p.root⟩

-- The last position of the run that starts at `p`, within a count of slots.
def lastOfRun (t : ForkTree) : Nat → Position → Position
  | 0, p => p
  | n + 1, p => if t.nodes.contains (following p) then t.lastOfRun n (following p) else p

/-- The latest snapshot after the anchor that carries `root`, up to `slot`. -/
def closest (t : ForkTree) (root : Root) (slot : UInt64) : Except Query.Error Snapshot :=
  match t.blocks[root]? with
  | none => .error (.unknownBlockRoot root)
  | some p =>
    if slot < p.slot then .error (.noCandidate root slot)
    else match t.unfinalized? (t.lastOfRun (slot.toNat - p.slot.toNat) p) with
      | some entry => .ok entry
      -- Only the anchor is left; it is served from the finalized region.
      | none => .error (.unknownBlockRoot root)

end ForkTree

end BeaconHistory
