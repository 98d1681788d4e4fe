import BeaconHistory.Frontier.Reading
import BeaconHistory.Ledger.Basic

/-!
# History — the whole chain

A frontier on top of a ledger, which is the sink of the frontier: what the frontier finalizes is
ingested by the ledger before it is pruned.  A lookup asks the frontier first and then the ledger.
-/

namespace BeaconHistory

structure History (τ : Type) where
  frontier : Frontier (Ledger τ)

namespace History

variable {τ α : Type}

abbrev Change (τ α : Type) := Operation Query.Error (History τ) α

def ledger (h : History τ) : Ledger τ := h.frontier.sink

def spec (h : History τ) : Spec := h.frontier.spec

def mapLedger (change : Ledger τ → Ledger τ) (h : History τ) : History τ := ⟨h.frontier.mapSink change⟩

def takeMetrics (h : History τ) : Metrics × History τ :=
  let (cold, ledger) := h.ledger.takeMetrics
  let (hot, frontier) := h.frontier.takeMetrics
  (cold ++ hot, ⟨frontier.mapSink fun _ => ledger⟩)

/-- The history that starts at `anchor`, its latest finalized entry: the ledger ingests it, and the
frontier grows from it. -/
def start [Archive τ] (anchor : Snapshot) (spec : Spec) (archive : τ) : Outcome Query.Error (History τ) := do
  (Outcome.ofExcept spec.validate).mapReason .config
  let ledger ← ((Ledger.ingest anchor).reach (.empty anchor.summary.slot spec archive)).mapReason .ledger
  return ⟨.plant anchor ledger spec⟩

/-! ## 1. Changes -/

-- A change of the frontier alone.
def onFrontier (change : Frontier.Change (Ledger τ) α) : Change τ α := fun h =>
  match change h.frontier with
  | .ok a frontier => .ok a ⟨frontier⟩
  | .error e frontier => .error (e.map .frontier) ⟨frontier⟩

def onLedger (change : Ledger.Change τ α) : Change τ α := fun h =>
  match change h.ledger with
  | .ok a ledger => .ok a (h.mapLedger fun _ => ledger)
  | .error e ledger => .error (e.map .ledger) (h.mapLedger fun _ => ledger)

/-- Refuses a position before the anchor that disagrees with the ledger; before the ledger there is
nothing to disagree with. -/
def agrees (h : History τ) (target : Position) : Except Query.Error Unit := do
  let anchor ← h.frontier.anchor.mapError .frontier
  if target.slot < anchor.slot then
    match h.ledger.bySlot target.slot with
    | .error (.unknownSlot _) => return ()
    | .error e => throw e
    | .ok entry =>
      if entry.position ≠ target then
        throw (.frontier (.conflictsWithFinalized target entry.position))

variable [Archive τ]

/-- Finalizes the entry at `target`; a position before the anchor is checked against the ledger. -/
def finalize (target : Position) : Change τ Nat := do
  Operation.ofOutcome fun h => Outcome.ofExcept (h.agrees target)
  onFrontier (Frontier.finalize target)

/-- Finalizes a checkpoint; one before the anchor is checked against the ledger. -/
def finalizeCheckpoint (c : Checkpoint) : Change τ Nat := do
  Operation.ofOutcome fun h => Outcome.ofExcept (h.agrees (Frontier.checkpointPosition h.spec c))
  onFrontier (Frontier.finalizeCheckpoint c)

/-! ## 2. Lookups -/

/-- Asks the frontier and, where it has no answer, the ledger. -/
def lookup (query : {γ : Type} → [Chain γ] → γ → Except Query.Error Entry) (h : History τ) :
    Except Query.Error Entry :=
  match query h.frontier with
  | .ok entry => .ok entry
  | .error inHot => match query h.ledger with
    | .ok entry => .ok entry
    | .error inCold => .error (.notFound inHot inCold)

def knows (h : History τ) (root : Root) : Bool :=
  (h.frontier.containsBlock root matches .ok true) || (h.ledger.containsBlock root matches .ok true)

/-- Whether block `a` is an ancestor of block `b`.  Every ancestor of a finalized block was finalized
before it; every finalized block precedes the anchor or is its block. -/
def ancestry (h : History τ) (a b : Root) : Ancestry :=
  if a = b then .notAncestor
  else match h.ledger.containsBlock a, h.ledger.containsBlock b with
    | .ok _, .ok true => match h.ledger.ancestry a b with
      -- A known block that was not finalized is no ancestor of a finalized one.
      | .unknown => if h.knows a then .notAncestor else .unknown
      | answer => answer
    | .ok true, .ok false => match h.frontier.extendsAnchor b with
      | .ok true => .ancestor
      | _ => .unknown
    | .ok false, .ok false => Chain.ancestry h.frontier a b
    -- A closed ledger cannot tell where either block is.
    | _, _ => .unknown

/-- The span of a region, or why there is none. -/
def spanOf (region : Region) (span : Except Query.Error Span) : Except Query.Error Span :=
  span.mapError (.range region)

instance : Chain (History τ) where
  spec := spec
  byStateRoot h root := h.lookup fun c => Chain.byStateRoot c root
  byBlockRoot h root := h.lookup fun c => Chain.byBlockRoot c root
  byPosition h p := h.lookup fun c => Chain.byPosition c p
  closest h root slot := h.lookup fun c => Chain.closest c root slot
  ancestry := ancestry
  bySlot h slot := h.lookup fun c => Chain.bySlot c slot
  span h := do
    let hot ← spanOf .hot (Chain.span h.frontier)
    let cold ← spanOf .cold (Chain.span h.ledger)
    return .joined cold hot
  files h := h.ledger.files

end History

end BeaconHistory
