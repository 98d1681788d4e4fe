import BeaconHistory.Metrics
import BeaconHistory.Span
import BeaconHistory.Transition

/-!
# Query.Chain — the questions that every region answers

The frontier, the ledger and the whole history answer the same questions.  Advancing towards a slot
is derived from them: it starts at the closest entry and leaves empty slots one by one, checking the
context before each.
-/

namespace BeaconHistory

class Chain (γ : Type) where
  spec : γ → Spec
  -- The entry whose state has a given root.
  byStateRoot : γ → Root → Except Query.Error Entry
  -- The entry of a block.
  byBlockRoot : γ → Root → Except Query.Error Entry
  -- The entry at a position, empty if its block is earlier.
  byPosition : γ → Position → Except Query.Error Entry
  -- The latest entry that carries a block, up to a slot.
  closest : γ → Root → UInt64 → Except Query.Error Entry
  -- Whether the first block is an ancestor of the second; none is its own.
  ancestry : γ → Root → Root → Ancestry
  -- The canonical entry at a slot.
  bySlot : γ → UInt64 → Except Query.Error Entry
  -- The range of slots held.
  span : γ → Except Query.Error Span
  -- What entries and spans read later.
  files : γ → Files

namespace Query

/-- Leaves a count of empty slots, checking the context before each. -/
def leaveSlots (ctx : Context) (spec : Spec) : Nat → State → Outcome Error State
  | 0, s => .ok s
  | n + 1, s => do
    ctx.check
    let s ← (s.advanced spec (s.slot + 1)).mapReason .transition
    leaveSlots ctx spec n s

/-- An entry and, if it was not there already, how many slots were left to get to it. -/
structure Arrival where
  entry : Entry
  steps : Option Nat

-- What is measured of an arrival: nothing if the entry was there already.
def Arrival.metrics (a : Arrival) : Metrics :=
  match a.steps with
  | none => .empty
  | some steps => .advanced steps

/-- Advances an entry through empty slots up to `slot`; never gives an earlier entry. -/
def advance (ctx : Context) (spec : Spec) (files : Files) (start : Entry) (slot : UInt64) :
    Outcome Error Arrival :=
  if slot ≤ start.slot then .ok ⟨start, none⟩
  else do
    let state ← (start.state files ctx).outcome .empty
    -- Counted from the state; a filed state is only as good as the archive it comes from.
    let steps := slot.toNat - state.slot.toNat
    let state ← leaveSlots ctx spec steps state
    return ⟨.advanced (.ofState spec state), some steps⟩

variable {γ : Type} [Chain γ]

/-- The entry at `slot` on top of block `root`. -/
def towards (c : γ) (ctx : Context) (root : Root) (slot : UInt64) : Outcome Error Arrival := do
  let block ← Outcome.ofExcept (Chain.byBlockRoot c root)
  if slot < block.slot then .refuse (.targetBeforeBlock root block.slot slot)
  let closest ← Outcome.ofExcept (Chain.closest c root slot)
  advance ctx (Chain.spec c) (Chain.files c) closest slot

end Query

end BeaconHistory
