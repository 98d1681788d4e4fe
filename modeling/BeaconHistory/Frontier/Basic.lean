import BeaconHistory.ForkTree.Growth
import BeaconHistory.ForkTree.Pruning
import BeaconHistory.Frontier.Sink
import BeaconHistory.Metrics

/-!
# Frontier — the unfinalized region

A fork tree whose newly finalized entries are handed to a sink before the anchor moves.  A change that
breaks off closes the frontier: every later call is refused, and nothing is served any more.
-/

namespace BeaconHistory

structure Frontier (σ : Type) where
  tree : ForkTree
  sink : σ
  -- A change broke off.
  poisoned : Bool
  -- What was measured since the metrics were last taken.
  metrics : Metrics

namespace Frontier

variable {σ α : Type}

abbrev Change (σ α : Type) := Operation Error (Frontier σ) α

def plant (anchor : Snapshot) (sink : σ) (spec : Spec) : Frontier σ :=
  ⟨.plant spec anchor, sink, false, .empty⟩

def spec (f : Frontier σ) : Spec := f.tree.spec

def mapSink (change : σ → σ) (f : Frontier σ) : Frontier σ := { f with sink := change f.sink }

def takeMetrics (f : Frontier σ) : Metrics × Frontier σ := (f.metrics, { f with metrics := .empty })

/-! ## 1. Changes -/

-- Runs a change on an open frontier, and closes it if the change breaks off.
def exclusively (change : Change σ α) : Change σ α := fun f =>
  if f.poisoned then .error (.refused .poisoned) f
  else match change f with
    | .error (.broke fault) f => .error (.broke fault) { f with poisoned := true }
    | answer => answer

-- A change of the tree alone.
def onTree (growth : ForkTree.Growth α) : Change σ α := fun f =>
  match growth f.tree with
  | .ok a tree => .ok a { f with tree := tree }
  | .error e tree => .error e { f with tree := tree }

def measure (m : Metrics) : Change σ Unit := modify fun f => { f with metrics := f.metrics ++ m }

/-- Adds a block on top of its parent, and the empty slots in between. -/
def addBlock (b : Block) : Change σ Snapshot := exclusively do
  let entry ← onTree (ForkTree.insertBlock b)
  measure (.frontierSize (← get).tree.size)
  return entry

def setHead (root : Root) : Change σ Unit := exclusively (onTree (ForkTree.setHead root))

/-! ## 2. Finalization -/

variable [Sink σ]

-- Moves the anchor, and tells the sink of what is pruned.
def reanchor (anchor : Position) : Change σ Unit := fun f =>
  let (tree, pruned) := f.tree.reanchor anchor
  .ok () { f with
    tree := tree
    sink := pruneAll pruned f.sink
    metrics := f.metrics ++ .pruned pruned.length ++ .frontierSize tree.size }

-- Hands entries to the sink.
def handToSink (path : List Snapshot) : Change σ (HandOver σ) := fun f =>
  let handed := handOver path f.sink
  .ok handed { f with sink := handed.sink }

-- Moves the anchor to the last entry that the sink took, if it took any.
def reanchorAfter (accepted : List Snapshot) : Change σ Unit :=
  match accepted.getLast? with
  | none => pure ()
  | some last => do
    measure (.finalized accepted.length)
    reanchor last.position

/-- Hands the entries after the anchor up to `target` to the sink, and moves the anchor to the last
one taken.  Gives their number if all were taken. -/
def finalizePath (target : Position) : Change σ Nat := do
  let path ← Operation.ofOutcome fun f => Outcome.ofExcept (f.tree.pathTo target)
  let handed ← handToSink path
  match handed.stopped with
  | none =>
    measure (.finalized path.length)
    reanchor target
    return path.length
  -- Where the sink broke off, the anchor stays and the frontier is about to be closed.
  | some (_, .broke fault) => throw (.broke fault)
  | some (entry, .refused rejection) =>
    measure .rejection
    reanchorAfter handed.accepted
    Operation.refuse (.sink entry.position rejection)

/-- Whether a target is finalized already; one at the slot of the anchor has to be the anchor. -/
def isFinalized (t : ForkTree) (target : Position) : Except Error Bool :=
  if t.anchor.slot < target.slot then .ok false
  else if target.slot = t.anchor.slot ∧ target ≠ t.anchor then
    .error (.conflictsWithFinalized target t.anchor)
  else .ok true

/-- Finalizes `target` unless it is finalized already, after some growth of the tree. -/
def finalizeAfter (growth : ForkTree.Growth Unit) (target : Position) : Change σ Nat := exclusively do
  if ← Operation.ofOutcome fun f => Outcome.ofExcept (isFinalized f.tree target) then return 0
  onTree growth
  finalizePath target

/-- Finalizes the entry at `target` and every entry between it and the anchor.  Gives the number of
newly finalized entries. -/
def finalize (target : Position) : Change σ Nat := finalizeAfter (pure ()) target

-- The entry that a checkpoint names.
def checkpointPosition (spec : Spec) (c : Checkpoint) : Position := ⟨spec.epochStart c.epoch, c.root⟩

/-- Finalizes the entry at the first slot of the epoch of a checkpoint, adding the empty slots up to
it. -/
def finalizeCheckpoint (c : Checkpoint) : Change σ Nat := fun f =>
  let target := checkpointPosition f.spec c
  finalizeAfter (ForkTree.reachSlot c.root target.slot) target f

end Frontier

end BeaconHistory
