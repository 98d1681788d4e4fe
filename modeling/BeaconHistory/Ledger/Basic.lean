import BeaconHistory.Frontier.Sink
import BeaconHistory.Metrics
import BeaconHistory.Query.Chain

/-!
# Ledger — the finalized region

One summary for each slot from the start on; the states are filed in an archive.  The ledger grows by
one linked entry at a time, and takes an entry only after its state is filed.
-/

namespace BeaconHistory

structure Ledger (τ : Type) where
  spec : Spec
  archive : τ
  start : UInt64
  records : Array Summary
  -- The first slot that carries a block.
  blocks : Std.ExtTreeMap Root UInt64
  -- The latest slot with a state.
  states : Std.ExtTreeMap Root UInt64
  -- A change broke off.
  poisoned : Bool
  -- What was measured since the metrics were last taken.
  metrics : Metrics

namespace Ledger

variable {τ : Type}

abbrev Change (τ α : Type) := Operation Error (Ledger τ) α

/-- The ledger without entries whose first one will be at `start`. -/
def empty (start : UInt64) (spec : Spec) (archive : τ) : Ledger τ :=
  ⟨spec, archive, start, #[], ∅, ∅, false, .empty⟩

def mapArchive (change : τ → τ) (l : Ledger τ) : Ledger τ := { l with archive := change l.archive }

def takeMetrics (l : Ledger τ) : Metrics × Ledger τ := (l.metrics, { l with metrics := .empty })

def next (l : Ledger τ) : UInt64 := l.start + UInt64.ofNat l.records.size

def record? (l : Ledger τ) (slot : UInt64) : Option Summary :=
  if slot < l.start then none else l.records[(slot - l.start).toNat]?

/-! ## 1. Ingestion -/

-- Refuses an entry that is not at the next slot or does not build on the latest one.
def checkLink (l : Ledger τ) (summary : Summary) : Except Error Unit :=
  if summary.slot ≠ l.next then .error (.nonSequential l.next summary.slot)
  else match l.records.back? with
    | none => .ok ()
    | some latest =>
      if summary.linksTo = latest.blockRoot then .ok ()
      else .error (.discontinuity summary.slot latest.blockRoot summary.linksTo)

def append (l : Ledger τ) (summary : Summary) : Ledger τ :=
  { l with
    records := l.records.push summary
    blocks := l.blocks.insertIfNew summary.blockRoot summary.slot
    states := l.states.insert summary.stateRoot summary.slot
    metrics := l.metrics ++ .ledgerHead summary.slot }

/-- Files the state of a newly finalized entry and records the entry.  A ledger whose archive breaks
off is closed. -/
def ingest [Archive τ] (entry : Snapshot) : Change τ Unit := fun l =>
  if l.poisoned then .error (.refused .poisoned) l
  else match l.checkLink entry.summary with
    | .error e => .error (.refused e) l
    | .ok () => match Archive.put entry.position entry.summary.stateRoot entry.state l.archive with
      -- The record follows the state, so a record never lacks its state.
      | .ok _ archive => .ok () ({ l with archive := archive }.append entry.summary)
      | .error (.refused e) archive => .error (.refused (.archive e)) { l with archive := archive }
      | .error (.broke fault) archive =>
        .error (.broke fault) { l with archive := archive, poisoned := true }

/-- A ledger takes the entries that a frontier finalizes; pruned ones do not concern it. -/
instance [Archive τ] : Frontier.Sink (Ledger τ) where
  offer entry l := match ingest entry l with
    | .ok _ l => .ok () l
    | .error e l => .error (e.map .ledger) l
  prune _ l := l

/-! ## 2. Where it stands -/

def opened (l : Ledger τ) : Except Query.Error (Ledger τ) :=
  if l.poisoned then .error (.poisoned .cold) else .ok l

def first (l : Ledger τ) : Except Query.Error UInt64 := do return (← l.opened).start

def stop (l : Ledger τ) : Except Query.Error UInt64 := do return (← l.opened).next

def size (l : Ledger τ) : Nat := if l.poisoned then 0 else l.records.size

def isEmpty (l : Ledger τ) : Bool := l.size = 0

def containsBlock (l : Ledger τ) (root : Root) : Except Query.Error Bool := do
  return (← l.opened).blocks.contains root

/-! ## 3. Lookups -/

def serve (l : Ledger τ) (missing : Query.Error) : Option Summary → Except Query.Error Entry
  | some summary => .ok (.filed summary l.spec)
  | none => .error missing

def head (l : Ledger τ) : Except Query.Error Entry := do
  (← l.opened).serve (.unknownSlot l.start) l.records.back?

def bySlot (l : Ledger τ) (slot : UInt64) : Except Query.Error Entry := do
  (← l.opened).serve (.unknownSlot slot) (l.record? slot)

-- Whether the record of a slot carries a block.
def carries (l : Ledger τ) (root : Root) (slot : UInt64) : Bool :=
  (l.record? slot).any fun summary => summary.blockRoot = root

-- The last slot of the run that carries `root` from `slot` on, within a count of slots.
def lastOfRun (l : Ledger τ) (root : Root) : Nat → UInt64 → UInt64
  | 0, slot => slot
  | n + 1, slot => if l.carries root (slot + 1) then l.lastOfRun root n (slot + 1) else slot

/-- The latest entry that carries `root`, up to `slot`. -/
def closest (l : Ledger τ) (root : Root) (slot : UInt64) : Except Query.Error Entry := do
  let l ← l.opened
  match l.blocks[root]? with
  | none => .error (.unknownBlockRoot root)
  | some first =>
    if slot < first then .error (.noCandidate root slot)
    else
      let last := l.lastOfRun root (slot.toNat - first.toNat) first
      l.serve (.unknownSlot last) (l.record? last)

/-- Finalized history has no forks: of two blocks, the earlier one is the ancestor. -/
def ancestry (l : Ledger τ) (a b : Root) : Ancestry :=
  if l.poisoned then .unknown
  else match l.blocks[a]?, l.blocks[b]? with
    | some i, some j => if i < j then .ancestor else .notAncestor
    | _, _ => .unknown

def files [Archive τ] (l : Ledger τ) : Files := ⟨Archive.get l.archive, l.bySlot⟩

instance [Archive τ] : Chain (Ledger τ) where
  spec := spec
  byStateRoot l root := do
    let l ← l.opened
    l.serve (.unknownStateRoot root) (l.states[root]?.bind l.record?)
  byBlockRoot l root := do
    let l ← l.opened
    l.serve (.unknownBlockRoot root) (l.blocks[root]?.bind l.record?)
  byPosition l p := do
    let l ← l.opened
    l.serve (.unknownPosition p) ((l.record? p.slot).filter fun summary => summary.blockRoot = p.root)
  closest := closest
  ancestry := ancestry
  bySlot := bySlot
  span l := do
    let l ← l.opened
    return .filed l.start l.next
  files := files

end Ledger

end BeaconHistory
