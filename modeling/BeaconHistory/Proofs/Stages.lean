import BeaconHistory.Proofs.Ring

/-!
# Stages — empty slots left in one stretch or in several

Advancing looks at the rings first and then leaves slot after slot, so where it stops on the way makes no
difference.  Main statement: in one stretch or in two, advancing comes to the same state or to the same
refusal, and changes of a state only its slot, the state root of its header and the cells of the slots left;
the latest block stays the latest block.
-/

namespace BeaconHistory

namespace State

variable {spec : Spec} {s t u : State}

/-! ## 1. What empty slots change -/

/-- `t` is what `s` may become when it leaves the slots before that of `t` and nothing else happens. -/
structure Idles (spec : Spec) (s t : State) : Prop where
  slot_le : s.slot ≤ t.slot
  validatorCount : t.validatorCount = s.validatorCount
  randaoMix : t.randaoMix = s.randaoMix
  header : { t.latestHeader with stateRoot := s.latestHeader.stateRoot } = s.latestHeader
  blockRoots_length : t.blockRoots.length = s.blockRoots.length
  stateRoots_length : t.stateRoots.length = s.stateRoots.length
  -- Only the cells of the slots that are left are written.
  cells : ∀ cell, (∀ slot : UInt64, s.slot ≤ slot → slot < t.slot →
      (slot % spec.historyLength).toNat ≠ cell) →
    t.blockRoots[cell]? = s.blockRoots[cell]? ∧ t.stateRoots[cell]? = s.stateRoots[cell]?

theorem Idles.refl (spec : Spec) (s : State) : Idles spec s s :=
  ⟨UInt64.le_refl _, rfl, rfl, rfl, rfl, rfl, fun _ _ => ⟨rfl, rfl⟩⟩

theorem Idles.trans (h : Idles spec s t) (h' : Idles spec t u) : Idles spec s u where
  slot_le := UInt64.le_trans h.slot_le h'.slot_le
  validatorCount := h'.validatorCount.trans h.validatorCount
  randaoMix := h'.randaoMix.trans h.randaoMix
  header := by
    have hfirst := h.header
    rw [← h'.header] at hfirst
    exact hfirst
  blockRoots_length := h'.blockRoots_length.trans h.blockRoots_length
  stateRoots_length := h'.stateRoots_length.trans h.stateRoots_length
  cells cell hcell := by
    have hfirst := h.cells cell fun slot hfrom hto =>
      hcell slot hfrom (UInt64.lt_of_lt_of_le hto h'.slot_le)
    have hlast := h'.cells cell fun slot hfrom hto =>
      hcell slot (UInt64.le_trans h.slot_le hfrom) hto
    exact ⟨hlast.1.trans hfirst.1, hlast.2.trans hfirst.2⟩

theorem header_sealedHeader (s : State) (root : Root) :
    { s.sealedHeader root with stateRoot := s.latestHeader.stateRoot } = s.latestHeader := by
  unfold sealedHeader
  split <;> rfl

theorem idles_of_leaveSlot (h : s.leaveSlot spec = .ok t) (hword : s.slot.toNat + 1 < 2 ^ 64) :
    Idles spec s t := by
  have hslot : t.slot.toNat = s.slot.toNat + 1 := by
    rw [slot_of_leaveSlot h, Slots.toNat_add_one _ hword]
  obtain ⟨-, -, hblocks, hstates⟩ := rings_of_leaveSlot h
  obtain ⟨blockRoots, stateRoots, hblocksLength, hstatesLength, rfl⟩ := eq_of_leaveSlot h
  refine ⟨?_, rfl, rfl, s.header_sealedHeader s.root, hblocksLength, hstatesLength, ?_⟩
  · rw [UInt64.le_iff_toNat_le, hslot]
    omega
  · intro cell hcell
    have hleft : s.slot.toNat % spec.historyLength.toNat ≠ cell := by
      rw [← UInt64.toNat_mod]
      apply hcell s.slot (UInt64.le_refl _)
      rw [UInt64.lt_iff_toNat_lt, hslot]
      omega
    rw [hblocks, hstates]
    exact ⟨List.getElem?_set_ne hleft, List.getElem?_set_ne hleft⟩

theorem idles_of_leaveSlots {n : Nat} (h : s.leaveSlots spec n = .ok t)
    (hword : s.slot.toNat + n < 2 ^ 64) : Idles spec s t := by
  induction n generalizing s with
  | zero =>
    cases h
    exact Idles.refl spec _
  | succ n ih =>
    obtain ⟨u, hu, h⟩ := Outcome.bind_eq_ok_iff.1 h
    have hslot : u.slot.toNat = s.slot.toNat + 1 := by
      rw [slot_of_leaveSlot hu, Slots.toNat_add_one _ (by omega)]
    exact (idles_of_leaveSlot hu (by omega)).trans (ih h (by omega))

theorem idles_of_advanced {target : UInt64} (h : s.advanced spec target = .ok t) : Idles spec s t := by
  obtain ⟨hlt, -, hleft⟩ := advanced_eq_ok_iff.1 h
  rw [UInt64.lt_iff_toNat_lt] at hlt
  have hword := target.toNat_lt
  exact idles_of_leaveSlots hleft (by omega)

/-! ## 2. Stopping on the way -/

-- On rings that fit, every later slot is reached.
theorem exists_advanced (hlength : spec.historyLength ≠ 0) (hfit : s.ringsFit spec = true)
    {target : UInt64} (hlt : s.slot < target) : ∃ t, s.advanced spec target = .ok t := by
  obtain ⟨t, ht⟩ := exists_leaveSlots hlength (target.toNat - s.slot.toNat) hfit
  exact ⟨t, advanced_eq_ok_iff.2 ⟨hlt, hfit, ht⟩⟩

-- Other rings are refused before any slot is left.
theorem advanced_of_not_ringsFit (hfit : s.ringsFit spec = false) {target : UInt64} (hlt : s.slot < target) :
    s.advanced spec target =
      .refuse (.historyLength spec.historyLength (min s.blockRoots.length s.stateRoots.length)) := by
  unfold advanced
  rw [if_neg (UInt64.not_le.2 hlt), hfit]
  rfl

end State

namespace Transition

variable {spec : Spec} {s t : State} {target : UInt64}

theorem processSlots_of_ok (h : s.advanced spec target = .ok t) : processSlots spec target s = .ok () t := by
  unfold processSlots become
  rw [h]

theorem processSlots_of_error {e : Failure Error} (h : s.advanced spec target = .error e) :
    processSlots spec target s = .error e s := by
  unfold processSlots become
  rw [h]

/-- With a ring to index, advancing to `last` in one go is the same as advancing to `mid` first.  It fails
only on rings of another length, and then changes nothing. -/
theorem processSlots_in_stages (hlength : spec.historyLength ≠ 0) {mid last : UInt64} (hmid : s.slot < mid)
    (hlast : mid < last) :
    processSlots spec last s = (do processSlots spec mid; processSlots spec last) s ∧
      if s.ringsFit spec then
        ∃ t, processSlots spec last s = .ok () t ∧ t.slot = last ∧ s.Idles spec t ∧
          (s.root ≠ .zero → t.latestBlockRoot = s.latestBlockRoot)
      else
        processSlots spec last s =
          .error (.refused (.historyLength spec.historyLength (min s.blockRoots.length s.stateRoots.length))) s := by
  have hlt := UInt64.lt_trans hmid hlast
  by_cases hfit : s.ringsFit spec = true
  · obtain ⟨t, ht⟩ := State.exists_advanced hlength hfit hmid
    obtain ⟨u, hu⟩ := State.exists_advanced hlength (State.ringsFit_of_advanced ht)
      (State.slot_of_advanced ht ▸ hlast)
    have hlastState := State.advanced_trans ht hu
    rw [if_pos hfit, processSlots_of_ok hlastState]
    constructor
    · rw [Operation.bind_of_ok (processSlots_of_ok ht)]
      exact (processSlots_of_ok hu).symm
    · refine ⟨u, rfl, State.slot_of_advanced hlastState, State.idles_of_advanced hlastState, ?_⟩
      intro hroot
      exact ((State.sealable_of_root hroot).advanced hlastState).2
  · have hnot := Bool.eq_false_iff.2 hfit
    rw [if_neg hfit, processSlots_of_error (State.advanced_of_not_ringsFit hnot hlt)]
    rw [Operation.bind_of_error (processSlots_of_error (State.advanced_of_not_ringsFit hnot hmid))]
    exact ⟨rfl, rfl⟩

-- A ring of two cells goes round more than once.
theorem processSlots_in_stages_genesis :
    processSlots ⟨1, 2, 1, 0⟩ 5 (.genesis ⟨1, 2, 1, 0⟩ 4 .zero) =
        (do processSlots ⟨1, 2, 1, 0⟩ 3; processSlots ⟨1, 2, 1, 0⟩ 5) (.genesis ⟨1, 2, 1, 0⟩ 4 .zero) ∧
      ∃ t, processSlots ⟨1, 2, 1, 0⟩ 5 (.genesis ⟨1, 2, 1, 0⟩ 4 .zero) = .ok () t ∧ t.slot = 5 ∧
        (State.genesis ⟨1, 2, 1, 0⟩ 4 .zero).Idles ⟨1, 2, 1, 0⟩ t ∧
        t.latestBlockRoot = (State.genesis ⟨1, 2, 1, 0⟩ 4 .zero).latestBlockRoot := by
  have hroot : (State.genesis ⟨1, 2, 1, 0⟩ 4 .zero).root ≠ .zero := by decide +kernel
  have hfit : (State.genesis ⟨1, 2, 1, 0⟩ 4 .zero).ringsFit ⟨1, 2, 1, 0⟩ = true := by decide
  obtain ⟨hstages, hkept⟩ := @processSlots_in_stages ⟨1, 2, 1, 0⟩ (.genesis ⟨1, 2, 1, 0⟩ 4 .zero)
    (by decide) 3 5 (by decide) (by decide)
  rw [if_pos hfit] at hkept
  obtain ⟨t, ht, hslot, hidles, hlatest⟩ := hkept
  exact ⟨hstages, t, ht, hslot, hidles, hlatest hroot⟩

end Transition

end BeaconHistory
