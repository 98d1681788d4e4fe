import BeaconHistory.Proofs.Commitment
import BeaconHistory.Proofs.Outcome
import BeaconHistory.Transition
import Mathlib.Algebra.Group.Nat.Defs

/-!
# Advance — what a transition keeps of a state

Leaving a slot moves a state by one slot and keeps its latest block; applying a block puts the block
on top.  Main statements: the root of the latest block survives an empty slot, the snapshot after a
block carries that block, and with constants that can divide no transition breaks off.
-/

namespace BeaconHistory

namespace State

/-! ## 1. Leaving a slot -/

@[simp] theorem slot_sealedHeader (s : State) (root : Root) :
    (s.sealedHeader root).slot = s.latestHeader.slot := by
  unfold sealedHeader
  split <;> rfl

theorem stateRoot_sealedHeader_ne_zero (s : State) {root : Root} (h : root ≠ .zero) :
    (s.sealedHeader root).stateRoot ≠ .zero := by
  unfold sealedHeader
  split
  · exact h
  · next hzero => exact hzero

theorem sealedHeader_of_ne_zero {s : State} (h : s.latestHeader.stateRoot ≠ .zero) (root : Root) :
    s.sealedHeader root = s.latestHeader := if_neg h

theorem writeRing_eq_ok {ε : Type} {ring ring' : List Root} {index : Nat} {root : Root}
    (h : writeRing (ε := ε) ring index root = .ok ring') :
    index < ring.length ∧ ring' = ring.set index root := by
  unfold writeRing at h
  split at h
  · next hlt => cases h; exact ⟨hlt, rfl⟩
  · cases h

-- What leaving a slot does to a state: only the rings are not told here.
theorem eq_of_leaveSlot {spec : Spec} {s t : State} (h : s.leaveSlot spec = .ok t) :
    ∃ blockRoots stateRoots, blockRoots.length = s.blockRoots.length ∧
      stateRoots.length = s.stateRoots.length ∧
      t = { s with
        slot := s.slot + 1
        latestHeader := s.sealedHeader s.root
        blockRoots := blockRoots
        stateRoots := stateRoots } := by
  unfold leaveSlot at h
  obtain ⟨index, -, h⟩ := Outcome.bind_eq_ok_iff.1 h
  obtain ⟨stateRoots, hstate, h⟩ := Outcome.bind_eq_ok_iff.1 h
  obtain ⟨blockRoots, hblock, h⟩ := Outcome.bind_eq_ok_iff.1 h
  cases h
  refine ⟨blockRoots, stateRoots, ?_, ?_, rfl⟩
  · rw [(writeRing_eq_ok hblock).2, List.length_set]
  · rw [(writeRing_eq_ok hstate).2, List.length_set]

theorem slot_of_leaveSlot {spec : Spec} {s t : State} (h : s.leaveSlot spec = .ok t) :
    t.slot = s.slot + 1 := by
  obtain ⟨_, _, _, _, rfl⟩ := eq_of_leaveSlot h
  rfl

theorem headerSlot_of_leaveSlot {spec : Spec} {s t : State} (h : s.leaveSlot spec = .ok t) :
    t.latestHeader.slot = s.latestHeader.slot := by
  obtain ⟨_, _, _, _, rfl⟩ := eq_of_leaveSlot h
  exact slot_sealedHeader s s.root

theorem latestBlockRoot_of_leaveSlot {spec : Spec} {s t : State} (h : s.leaveSlot spec = .ok t)
    (hroot : s.root ≠ .zero) : t.latestBlockRoot = s.latestBlockRoot := by
  obtain ⟨blockRoots, stateRoots, _, _, rfl⟩ := eq_of_leaveSlot h
  have hsealed := s.stateRoot_sealedHeader_ne_zero hroot
  unfold latestBlockRoot
  rw [sealedHeader_of_ne_zero hsealed]

theorem slot_of_leaveSlots {spec : Spec} {n : Nat} {s t : State} (h : s.leaveSlots spec n = .ok t) :
    t.slot = s.slot + UInt64.ofNat n := by
  induction n generalizing s with
  | zero => cases h; simp
  | succ n ih =>
    obtain ⟨u, hu, h⟩ := Outcome.bind_eq_ok_iff.1 h
    rw [ih h, slot_of_leaveSlot hu, UInt64.ofNat_add, UInt64.add_assoc, UInt64.add_comm 1]
    rfl

theorem headerSlot_of_leaveSlots {spec : Spec} {n : Nat} {s t : State}
    (h : s.leaveSlots spec n = .ok t) : t.latestHeader.slot = s.latestHeader.slot := by
  induction n generalizing s with
  | zero => cases h; rfl
  | succ n ih =>
    obtain ⟨u, hu, h⟩ := Outcome.bind_eq_ok_iff.1 h
    rw [ih h, headerSlot_of_leaveSlot hu]

/-! ## 2. Advancing to a slot -/

-- Advancing succeeds only ahead, on rings that fit, and by leaving the slots in between.
theorem advanced_eq_ok_iff {spec : Spec} {target : UInt64} {s t : State} :
    s.advanced spec target = .ok t ↔
      s.slot < target ∧ s.ringsFit spec = true ∧
        s.leaveSlots spec (target.toNat - s.slot.toNat) = .ok t := by
  unfold advanced
  by_cases hle : target ≤ s.slot
  · rw [if_pos hle]
    exact ⟨fun h => (by cases h), fun h => absurd h.1 (UInt64.not_lt.2 hle)⟩
  · rw [if_neg hle]
    by_cases hfit : s.ringsFit spec = true
    · rw [if_pos hfit]
      exact ⟨fun h => ⟨UInt64.not_le.1 hle, hfit, h⟩, fun h => h.2.2⟩
    · rw [if_neg hfit]
      exact ⟨fun h => (by cases h), fun h => absurd h.2.1 hfit⟩

theorem slot_of_advanced {spec : Spec} {target : UInt64} {s t : State}
    (h : s.advanced spec target = .ok t) : t.slot = target := by
  obtain ⟨hlt, -, h⟩ := advanced_eq_ok_iff.1 h
  have hlt : s.slot.toNat < target.toNat := UInt64.lt_iff_toNat_lt.1 hlt
  have hbound := target.toNat_lt
  rw [slot_of_leaveSlots h]
  apply UInt64.toNat_inj.1
  rw [UInt64.toNat_add, UInt64.toNat_ofNat']
  omega

theorem headerSlot_of_advanced {spec : Spec} {target : UInt64} {s t : State}
    (h : s.advanced spec target = .ok t) : t.latestHeader.slot = s.latestHeader.slot :=
  headerSlot_of_leaveSlots (advanced_eq_ok_iff.1 h).2.2

-- Advancing by one slot leaves one slot.
theorem leaveSlot_of_advanced {spec : Spec} {s t : State} (hslot : s.slot.toNat + 1 < 2 ^ 64)
    (h : s.advanced spec (s.slot + 1) = .ok t) : s.leaveSlot spec = .ok t := by
  obtain ⟨-, -, h⟩ := advanced_eq_ok_iff.1 h
  have hone : (s.slot + 1).toNat - s.slot.toNat = 1 := by
    rw [UInt64.toNat_add, UInt64.toNat_one, Nat.mod_eq_of_lt hslot]
    omega
  rw [hone] at h
  obtain ⟨u, hu, h⟩ := Outcome.bind_eq_ok_iff.1 h
  cases h
  exact hu

/-! ## 3. Blocks -/

-- What applying the header of a block needs of the state, and what it makes of it.
theorem eq_of_withHeader {spec : Spec} {b : Block} {s t : State} (h : s.withHeader spec b = .ok t) :
    b.slot = s.slot ∧ s.latestHeader.slot < b.slot ∧ b.parentRoot = s.latestBlockRoot ∧
      t = { s with latestHeader := { b.toHeader with stateRoot := .zero } } := by
  unfold withHeader at h
  dsimp only at h
  split at h
  · cases h
  next hslot =>
  split at h
  · cases h
  next hnewer =>
  obtain ⟨expected, -, h⟩ := Outcome.bind_eq_ok_iff.1 h
  split at h
  · cases h
  split at h
  · cases h
  next hparent =>
  cases h
  exact ⟨Decidable.not_not.1 hslot, UInt64.not_le.1 hnewer, Decidable.not_not.1 hparent, rfl⟩

end State

namespace Transition

-- The part of applying a block that is left once its slot is reached.
def applyAtSlot (spec : Spec) (b : Block) : Transition Unit := do
  processHeader spec b
  let computed := (← get).root
  if computed ≠ b.stateRoot then Operation.refuse (.stateRootMismatch b.stateRoot computed)

theorem applyAtSlot_eq (spec : Spec) (b : Block) (pre : State) :
    applyAtSlot spec b pre =
      match pre.withHeader spec b with
      | .error e => .error e pre
      | .ok post =>
        if post.root = b.stateRoot then .ok () post
        else .error (.refused (.stateRootMismatch b.stateRoot post.root)) post := by
  show EStateM.bind (processHeader spec b) _ pre = _
  unfold EStateM.bind processHeader become
  cases pre.withHeader spec b with
  | error e => rfl
  | ok post =>
    by_cases hroot : post.root = b.stateRoot
    · simp [hroot]
      rfl
    · simp [hroot]
      rfl

theorem applyBlock_eq (spec : Spec) (b : Block) (s : State) :
    applyBlock spec b s =
      match s.atSlot spec b.slot with
      | .error e => .error e s
      | .ok pre => applyAtSlot spec b pre := by
  unfold State.atSlot
  by_cases hslot : b.slot > s.slot
  · have hstages : applyBlock spec b s =
        EStateM.bind (processSlots spec b.slot) (fun _ => applyAtSlot spec b) s :=
      congrFun (if_pos hslot) s
    rw [if_pos hslot, hstages]
    unfold EStateM.bind processSlots become
    cases s.advanced spec b.slot <;> rfl
  · rw [if_neg hslot]
    exact congrFun (if_neg hslot) s

-- A block is applied to the state of its slot, and the state it leads to is the one it names.
theorem reach_applyBlock_eq_ok_iff {spec : Spec} {b : Block} {s t : State} :
    (applyBlock spec b).reach s = .ok t ↔
      ∃ pre, s.atSlot spec b.slot = .ok pre ∧ pre.withHeader spec b = .ok t ∧
        t.root = b.stateRoot := by
  unfold Operation.reach EStateM.run
  rw [applyBlock_eq]
  cases s.atSlot spec b.slot with
  | error e => exact ⟨fun h => (by cases h), fun ⟨_, h, _⟩ => (by cases h)⟩
  | ok pre =>
    simp only [Except.ok.injEq, exists_eq_left']
    rw [applyAtSlot_eq]
    cases pre.withHeader spec b with
    | error e => exact ⟨fun h => (by cases h), fun h => (by cases h.1)⟩
    | ok post =>
      by_cases hroot : post.root = b.stateRoot
      · simp only [hroot, if_true, Except.ok.injEq]
        exact ⟨fun h => ⟨h, h ▸ hroot⟩, fun h => h.1⟩
      · simp only [hroot, if_false, Except.ok.injEq]
        exact ⟨fun h => (by cases h), fun ⟨h, hroot'⟩ => absurd (h ▸ hroot') hroot⟩

-- The header of a block that was applied is the block itself, once its state root is filled in.
theorem sealedHeader_of_applyBlock {spec : Spec} {b : Block} {s t : State}
    (h : (applyBlock spec b).reach s = .ok t) : t.sealedHeader t.root = b.toHeader := by
  obtain ⟨pre, -, hheader, hroot⟩ := reach_applyBlock_eq_ok_iff.1 h
  obtain ⟨-, -, -, ht⟩ := State.eq_of_withHeader hheader
  rw [hroot, ht]
  rfl

theorem summary_of_applyBlock {spec : Spec} {b : Block} {s t : State}
    (h : (applyBlock spec b).reach s = .ok t) :
    Summary.ofState t = ⟨b.slot, b.root, b.parentRoot, b.stateRoot, false⟩ := by
  have hsealed := sealedHeader_of_applyBlock h
  obtain ⟨pre, -, hheader, hroot⟩ := reach_applyBlock_eq_ok_iff.1 h
  rw [hroot] at hsealed
  obtain ⟨hslot, -, -, ht⟩ := State.eq_of_withHeader hheader
  have htslot : t.slot = b.slot := by rw [ht, hslot]
  have hblock : t.hasBlockAtSlot = true := by simp [State.hasBlockAtSlot, ht, hslot]
  have hparent : t.latestHeader.parentRoot = b.parentRoot := by rw [ht]
  simp [Summary.ofState, hsealed, hblock, hparent, htslot, hroot, Block.root]

end Transition

namespace State

/-! ## 4. States that come from a genesis state -/

/-- A state that comes from a genesis state through advancing and applying blocks, with constants
out of `specs`; a call that is refused leaves behind what it has done. -/
inductive Reached (specs : Spec → Prop) : State → Prop where
  | genesis (spec : Spec) (validatorCount : UInt64) (randaoMix : Root) (hspec : specs spec) :
      Reached specs (genesis spec validatorCount randaoMix)
  | processSlots {s : State} (spec : Spec) (target : UInt64) (hspec : specs spec)
      (hs : Reached specs s) : Reached specs ((Transition.processSlots spec target).after s)
  | applyBlock {s : State} (spec : Spec) (b : Block) (hspec : specs spec) (hs : Reached specs s) :
      Reached specs ((Transition.applyBlock spec b).after s)

def Aged (s : State) : Prop := s.latestHeader.slot ≤ s.slot

theorem Aged.advanced {spec : Spec} {target : UInt64} {s t : State} (hs : s.Aged)
    (h : s.advanced spec target = .ok t) : t.Aged := by
  have hlt : s.slot < t.slot := by
    rw [slot_of_advanced h]
    exact (advanced_eq_ok_iff.1 h).1
  unfold Aged
  rw [headerSlot_of_advanced h]
  exact UInt64.le_trans hs (UInt64.le_of_lt hlt)

-- After an empty slot no block is at the slot of the state.
theorem Aged.not_hasBlockAtSlot {spec : Spec} {target : UInt64} {s t : State} (hs : s.Aged)
    (h : s.advanced spec target = .ok t) : t.hasBlockAtSlot = false := by
  have hlt := (advanced_eq_ok_iff.1 h).1
  refine decide_eq_false fun heq => ?_
  rw [headerSlot_of_advanced h, slot_of_advanced h] at heq
  exact UInt64.not_le.2 hlt (heq ▸ hs)

theorem Aged.atSlot {spec : Spec} {slot : UInt64} {s t : State} (hs : s.Aged)
    (h : s.atSlot spec slot = .ok t) : t.Aged := by
  unfold State.atSlot at h
  split at h
  · exact hs.advanced h
  · cases h; exact hs

theorem aged_of_withHeader {spec : Spec} {b : Block} {s t : State}
    (h : s.withHeader spec b = .ok t) : t.Aged := by
  obtain ⟨hslot, -, -, rfl⟩ := eq_of_withHeader h
  exact UInt64.le_of_eq hslot

theorem aged_of_applyBlock {spec : Spec} {b : Block} {s t : State}
    (h : (Transition.applyBlock spec b).reach s = .ok t) : t.Aged := by
  obtain ⟨pre, -, hheader, -⟩ := Transition.reach_applyBlock_eq_ok_iff.1 h
  exact aged_of_withHeader hheader

theorem Reached.aged {specs : Spec → Prop} {s : State} (h : Reached specs s) : s.Aged := by
  induction h with
  | genesis spec validatorCount randaoMix _ => exact UInt64.le_refl _
  | @processSlots s spec target _ _ ih =>
    unfold Operation.after EStateM.run Transition.processSlots Transition.become
    cases h : s.advanced spec target with
    | error e => exact ih
    | ok t => exact ih.advanced h
  | @applyBlock s spec b _ _ ih =>
    unfold Operation.after EStateM.run
    rw [Transition.applyBlock_eq]
    cases hpre : s.atSlot spec b.slot with
    | error e => exact ih
    | ok pre =>
      have hpreAged := ih.atSlot hpre
      dsimp only
      rw [Transition.applyAtSlot_eq]
      cases hpost : pre.withHeader spec b with
      | error e => exact hpreAged
      | ok post =>
        by_cases hroot : post.root = b.stateRoot
        · simp only [hroot, if_true]
          exact aged_of_withHeader hpost
        · simp only [hroot, if_false]
          exact aged_of_withHeader hpost

/-! ## 5. Constants that can divide -/

theorem ringIndex_eq_ok {ε : Type} {spec : Spec} (hlength : spec.historyLength ≠ 0) (slot : UInt64) :
    spec.ringIndex (ε := ε) slot = .ok (slot % spec.historyLength).toNat := if_neg hlength

theorem historyLength_ne_zero {spec : Spec} (hspec : spec.validate = .ok ()) : spec.historyLength ≠ 0 :=
  ((Spec.validate_eq_ok_iff spec).1 hspec).2.1

theorem ringIndex_lt {ε : Type} {spec : Spec} {slot : UInt64} {index : Nat}
    (h : spec.ringIndex (ε := ε) slot = .ok index) : index < spec.historyLength.toNat := by
  unfold Spec.ringIndex at h
  split at h
  · cases h
  next hlength =>
  cases h
  rw [UInt64.toNat_mod]
  apply Nat.mod_lt
  exact Nat.pos_of_ne_zero fun hzero => hlength (UInt64.toNat_inj.1 hzero)

theorem writeRing_of_lt {ε : Type} {ring : List Root} {index : Nat} (h : index < ring.length)
    (root : Root) : writeRing (ε := ε) ring index root = .ok (ring.set index root) := if_pos h

-- On rings that fit, the cell of every slot is there.
theorem exists_leaveSlot {spec : Spec} (hlength : spec.historyLength ≠ 0) {s : State}
    (hfit : s.ringsFit spec = true) : ∃ t, s.leaveSlot spec = .ok t := by
  simp only [ringsFit, Bool.and_eq_true, decide_eq_true_eq] at hfit
  have hindex := ringIndex_eq_ok (ε := Transition.Error) hlength s.slot
  have hlt := ringIndex_lt hindex
  unfold leaveSlot
  rw [hindex]
  dsimp only [bind, Except.bind]
  rw [writeRing_of_lt (hfit.2 ▸ hlt), writeRing_of_lt (hfit.1 ▸ hlt)]
  exact ⟨_, rfl⟩

theorem ringsFit_of_leaveSlot {spec : Spec} {s t : State} (h : s.leaveSlot spec = .ok t)
    (hfit : s.ringsFit spec = true) : t.ringsFit spec = true := by
  obtain ⟨blockRoots, stateRoots, hblock, hstate, rfl⟩ := eq_of_leaveSlot h
  simp only [ringsFit, Bool.and_eq_true, decide_eq_true_eq] at hfit ⊢
  exact ⟨hblock.trans hfit.1, hstate.trans hfit.2⟩

theorem exists_leaveSlots {spec : Spec} (hlength : spec.historyLength ≠ 0) (n : Nat) {s : State}
    (hfit : s.ringsFit spec = true) : ∃ t, s.leaveSlots spec n = .ok t := by
  induction n generalizing s with
  | zero => exact ⟨s, rfl⟩
  | succ n ih =>
    obtain ⟨next, hnext⟩ := exists_leaveSlot hlength hfit
    obtain ⟨t, ht⟩ := ih (ringsFit_of_leaveSlot hnext hfit)
    exact ⟨t, Outcome.bind_eq_ok_iff.2 ⟨next, hnext, ht⟩⟩

theorem advanced_steady {spec : Spec} (hspec : spec.validate = .ok ()) (target : UInt64) (s : State) :
    (s.advanced spec target).Steady := by
  unfold advanced
  split
  · exact Outcome.steady_refuse _
  · split
    · next hfit =>
      obtain ⟨t, ht⟩ := exists_leaveSlots (historyLength_ne_zero hspec) (target.toNat - s.slot.toNat) hfit
      rw [ht]
      exact Outcome.steady_ok t
    · exact Outcome.steady_refuse _

theorem duties_steady {spec : Spec} (hspec : spec.validate = .ok ()) (s : State) :
    (Duties.ofState spec s).Steady := by
  have hepoch : spec.epochOf (ε := Transition.Error) s.slot = .ok (s.slot / spec.slotsPerEpoch) :=
    if_neg ((Spec.validate_eq_ok_iff spec).1 hspec).1
  unfold Duties.ofState
  dsimp only
  split
  · exact Outcome.steady_refuse_bind _ _
  · rw [hepoch]
    exact Outcome.steady_ok _

theorem expectedProposer_steady {spec : Spec} (hspec : spec.validate = .ok ()) (slot : UInt64)
    (s : State) : (s.expectedProposer spec slot).Steady := by
  refine (duties_steady hspec s).bind fun duties _ => ?_
  unfold Duties.proposer
  split
  · exact Outcome.steady_ok _
  · exact Outcome.steady_refuse _

theorem withHeader_steady {spec : Spec} (hspec : spec.validate = .ok ()) (b : Block) (s : State) :
    (s.withHeader spec b).Steady := by
  unfold withHeader
  dsimp only
  split
  · exact Outcome.steady_refuse_bind _ _
  split
  · exact Outcome.steady_refuse_bind _ _
  apply (expectedProposer_steady hspec b.slot s).bind
  intro expected _
  split
  · exact Outcome.steady_refuse_bind _ _
  split
  · exact Outcome.steady_refuse_bind _ _
  exact Outcome.steady_ok _

theorem atSlot_steady {spec : Spec} (hspec : spec.validate = .ok ()) (slot : UInt64) (s : State) :
    (s.atSlot spec slot).Steady := by
  unfold atSlot
  split
  · exact advanced_steady hspec slot s
  · exact Outcome.steady_ok s

theorem applyBlock_steady {spec : Spec} (hspec : spec.validate = .ok ()) (b : Block) (s : State) :
    ((Transition.applyBlock spec b).reach s).Steady := by
  unfold Operation.reach EStateM.run
  rw [Transition.applyBlock_eq]
  cases hpre : s.atSlot spec b.slot with
  | error e =>
    intro fault h
    cases h
    exact atSlot_steady hspec b.slot s fault hpre
  | ok pre =>
    dsimp only
    rw [Transition.applyAtSlot_eq]
    cases hpost : pre.withHeader spec b with
    | error e =>
      intro fault h
      cases h
      exact withHeader_steady hspec b pre fault hpost
    | ok post =>
      by_cases hroot : post.root = b.stateRoot
      · simp only [hroot, if_true]
        exact Outcome.steady_ok _
      · simp only [hroot, if_false]
        exact Outcome.steady_refuse _

end State

end BeaconHistory
