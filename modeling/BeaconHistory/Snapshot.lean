import BeaconHistory.Position
import BeaconHistory.State

/-!
# Snapshot — one place of the chain with its state

A summary names the block that a slot carries, the block it builds on and the state it leads to.  A
snapshot is a summary together with the state it was read off; the two never differ.
-/

namespace BeaconHistory

/-- What identifies an entry of the chain, without its state. -/
structure Summary where
  slot : UInt64
  -- Root of the block at the slot, or of the latest one before an empty slot.
  blockRoot : Root
  -- Root of the block built on; an empty slot builds on the block it carries.
  parentRoot : Root
  stateRoot : Root
  isEmpty : Bool
deriving DecidableEq, Inhabited

namespace Summary

def position (s : Summary) : Position := ⟨s.slot, s.blockRoot⟩

-- The block root that the entry before has to carry.
def linksTo (s : Summary) : Root := if s.isEmpty then s.blockRoot else s.parentRoot

/-- The summary of a state. -/
def ofState (s : State) : Summary :=
  let stateRoot := s.root
  let blockRoot := (s.sealedHeader stateRoot).root
  { slot := s.slot
    blockRoot := blockRoot
    parentRoot := if s.hasBlockAtSlot then s.latestHeader.parentRoot else blockRoot
    stateRoot := stateRoot
    isEmpty := !s.hasBlockAtSlot }

@[simp] theorem slot_ofState (s : State) : (ofState s).slot = s.slot := rfl
@[simp] theorem blockRoot_ofState (s : State) : (ofState s).blockRoot = s.latestBlockRoot := rfl
@[simp] theorem stateRoot_ofState (s : State) : (ofState s).stateRoot = s.root := rfl
@[simp] theorem isEmpty_ofState (s : State) : (ofState s).isEmpty = !s.hasBlockAtSlot := rfl

end Summary

/-- An entry whose state is in memory. -/
structure Snapshot where
  spec : Spec
  state : State
  summary : Summary
  summary_eq : summary = Summary.ofState state

namespace Snapshot

/-- The snapshot of a state, read with `spec`. -/
def ofState (spec : Spec) (state : State) : Snapshot := ⟨spec, state, .ofState state, rfl⟩

def position (s : Snapshot) : Position := s.summary.position

@[simp] theorem state_ofState (spec : Spec) (state : State) : (ofState spec state).state = state := rfl
@[simp] theorem spec_ofState (spec : Spec) (state : State) : (ofState spec state).spec = spec := rfl

/-- A snapshot is determined by its specification and its state. -/
theorem ext_state {a b : Snapshot} (hspec : a.spec = b.spec) (hstate : a.state = b.state) : a = b := by
  obtain ⟨_, _, _, ha⟩ := a
  obtain ⟨_, _, _, hb⟩ := b
  cases hspec; cases hstate; cases ha; cases hb; rfl

end Snapshot

end BeaconHistory
