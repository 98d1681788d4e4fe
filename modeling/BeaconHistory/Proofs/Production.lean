import BeaconHistory.Proofs.Replay

/-!
# Production — blocks that are accepted and blocks that are produced

A proposer makes a block of the state it builds on, and everyone else compares a block with that state.
Main statement: the block that is made is the only one of its slot and body that is accepted, because each
other field of a block is compared with what the proposer puts there.
-/

namespace BeaconHistory

namespace State

variable {spec : Spec} {s t : State} {slot : UInt64} {body : Root} {b : Block}

/-! ## 1. Headers -/

/-- A header is applied to a state of its slot, newer than the latest one, from the drawn proposer and on
top of the latest block; its state root is not looked at. -/
theorem withHeader_eq_ok_iff :
    s.withHeader spec b = .ok t ↔
      b.slot = s.slot ∧ s.latestHeader.slot < b.slot ∧
        s.expectedProposer spec b.slot = .ok b.proposerIndex ∧ b.parentRoot = s.latestBlockRoot ∧
        t = { s with latestHeader := { b.toHeader with stateRoot := .zero } } := by
  constructor
  · intro h
    obtain ⟨hslot, hnewer, hparent, ht⟩ := eq_of_withHeader h
    refine ⟨hslot, hnewer, ?_, hparent, ht⟩
    unfold withHeader at h
    dsimp only at h
    rw [if_neg (not_not.2 hslot), if_neg (UInt64.not_le.2 hnewer)] at h
    obtain ⟨expected, hexpected, h⟩ := Outcome.bind_eq_ok_iff.1 h
    split at h
    · cases h
    next hproposer => rw [hexpected, Decidable.not_not.1 hproposer]
  · rintro ⟨hslot, hnewer, hproposer, hparent, rfl⟩
    unfold withHeader
    dsimp only
    rw [if_neg (not_not.2 hslot), if_neg (UInt64.not_le.2 hnewer), hproposer]
    dsimp only [bind, Except.bind]
    rw [if_neg (not_not.2 rfl), if_neg (not_not.2 hparent)]
    rfl

/-- A block is produced on the state of its slot: it is one whose header can be applied there, with the
root of the state that this gives. -/
theorem produceBlock_eq_ok_iff :
    s.produceBlock spec slot body = .ok b ↔
      b.slot = slot ∧ b.bodyRoot = body ∧
        ∃ pre post, s.atSlot spec slot = .ok pre ∧ pre.withHeader spec b = .ok post ∧
          b.stateRoot = post.root := by
  unfold produceBlock
  rw [Outcome.bind_eq_ok_iff]
  constructor
  · rintro ⟨pre, hpre, h⟩
    obtain ⟨proposer, -, h⟩ := Outcome.bind_eq_ok_iff.1 h
    obtain ⟨post, hpost, h⟩ := Outcome.bind_eq_ok_iff.1 h
    cases h
    exact ⟨rfl, rfl, pre, post, hpre, hpost, rfl⟩
  · rintro ⟨rfl, rfl, pre, post, hpre, hpost, hroot⟩
    obtain ⟨-, -, hproposer, hparent, -⟩ := withHeader_eq_ok_iff.1 hpost
    refine ⟨pre, hpre, Outcome.bind_eq_ok_iff.2 ⟨b.proposerIndex, hproposer, ?_⟩⟩
    -- The draft is the block itself but for its state root.
    rw [← hparent]
    refine Outcome.bind_eq_ok_iff.2 ⟨post, hpost, ?_⟩
    rw [← hroot]
    rfl

end State

/-! ## 2. Blocks -/

namespace Transition

variable {spec : Spec} {s t : State} {b : Block}

theorem outcome_applyBlock_eq_ok_iff :
    (applyBlock spec b).outcome s = .ok () ↔ ∃ t, (applyBlock spec b).reach s = .ok t := by
  unfold Operation.outcome Operation.reach
  cases (applyBlock spec b).run s with
  | ok _ t => exact ⟨fun _ => ⟨t, rfl⟩, fun _ => rfl⟩
  | error e t => exact ⟨fun h => (by cases h), fun ⟨_, h⟩ => (by cases h)⟩

theorem after_eq_of_reach (h : (applyBlock spec b).reach s = .ok t) : (applyBlock spec b).after s = t := by
  unfold Operation.reach at h
  unfold Operation.after
  cases hrun : (applyBlock spec b).run s with
  | ok _ t' =>
    rw [hrun] at h
    exact Except.ok.inj h
  | error e t' =>
    rw [hrun] at h
    cases h

/-- `t` is a state right after the block `b`, which was built on what `s` is at the slot of the block. -/
structure Carried (spec : Spec) (b : Block) (s t : State) : Prop where
  slot : t.slot = b.slot
  stateRoot : t.root = b.stateRoot
  blockRoot : t.latestBlockRoot = b.root
  hasBlock : t.hasBlockAtSlot = true
  parent : ∃ pre, b.parentRoot = pre.latestBlockRoot ∧
    (s.slot = b.slot ∧ pre = s ∨ s.slot < b.slot ∧ (processSlots spec b.slot).reach s = .ok pre)

theorem reach_processSlots (spec : Spec) (target : UInt64) (s : State) :
    (processSlots spec target).reach s = s.advanced spec target := by
  unfold Operation.reach EStateM.run processSlots become
  cases s.advanced spec target <;> rfl

theorem carried_of_applyBlock (h : (applyBlock spec b).reach s = .ok t) : Carried spec b s t := by
  obtain ⟨pre, hpre, hheader, hroot⟩ := reach_applyBlock_eq_ok_iff.1 h
  obtain ⟨hslot, -, hparent, ht⟩ := State.eq_of_withHeader hheader
  -- The state root that is filled in for the header is the one that the block names.
  have hsealed := sealedHeader_of_applyBlock h
  refine ⟨?_, hroot, congrArg Header.root hsealed, ?_, pre, hparent, ?_⟩
  · rw [ht, hslot]
  · rw [ht]
    exact decide_eq_true hslot
  · rcases State.atSlot_eq_ok_iff.1 hpre with hadvanced | ⟨-, rfl⟩
    · exact Or.inr ⟨(State.advanced_eq_ok_iff.1 hadvanced).1, (reach_processSlots _ _ _).trans hadvanced⟩
    · exact Or.inl ⟨hslot.symm, rfl⟩

/-- Whatever the state and the constants, a block is accepted iff it is what the drawn proposer produces
at its slot with its body; and the state that it leads to is the one that it names, with the block as its
latest. -/
theorem accepted_iff_produced (spec : Spec) (s : State) (b : Block) :
    ((applyBlock spec b).outcome s = .ok () ↔ s.produceBlock spec b.slot b.bodyRoot = .ok b) ∧
      ((applyBlock spec b).outcome s = .ok () → Carried spec b s ((applyBlock spec b).after s)) := by
  constructor
  · rw [outcome_applyBlock_eq_ok_iff, State.produceBlock_eq_ok_iff]
    simp only [reach_applyBlock_eq_ok_iff, true_and]
    constructor
    · rintro ⟨post, pre, hpre, hpost, hroot⟩
      exact ⟨pre, post, hpre, hpost, hroot.symm⟩
    · rintro ⟨pre, post, hpre, hpost, hroot⟩
      exact ⟨post, pre, hpre, hpost, hroot.symm⟩
  · intro h
    obtain ⟨t, hreach⟩ := outcome_applyBlock_eq_ok_iff.1 h
    rw [after_eq_of_reach hreach]
    exact carried_of_applyBlock hreach

-- On a genesis state there is a block to be produced.
theorem accepted_iff_produced_tiny :
    ∃ b, (State.genesis ⟨1, 1, 1, 0⟩ 4 .zero).produceBlock ⟨1, 1, 1, 0⟩ 1 .zero = .ok b ∧
      (applyBlock ⟨1, 1, 1, 0⟩ b).outcome (.genesis ⟨1, 1, 1, 0⟩ 4 .zero) = .ok () ∧
      Carried ⟨1, 1, 1, 0⟩ b (.genesis ⟨1, 1, 1, 0⟩ 4 .zero)
        ((applyBlock ⟨1, 1, 1, 0⟩ b).after (.genesis ⟨1, 1, 1, 0⟩ 4 .zero)) := by
  have hproduced : ((State.genesis ⟨1, 1, 1, 0⟩ 4 .zero).produceBlock ⟨1, 1, 1, 0⟩ 1 .zero).toBool =
      true := by decide +kernel
  cases hblock : (State.genesis ⟨1, 1, 1, 0⟩ 4 .zero).produceBlock ⟨1, 1, 1, 0⟩ 1 .zero with
  | error e =>
    rw [hblock] at hproduced
    cases hproduced
  | ok b =>
    obtain ⟨hslot, hbody, -⟩ := State.produceBlock_eq_ok_iff.1 hblock
    obtain ⟨hiff, hcarried⟩ := accepted_iff_produced ⟨1, 1, 1, 0⟩ (.genesis ⟨1, 1, 1, 0⟩ 4 .zero) b
    rw [hslot, hbody] at hiff
    exact ⟨b, rfl, hiff.2 hblock, hcarried (hiff.2 hblock)⟩

end Transition

end BeaconHistory
