import BeaconHistory.Proofs.Production
import BeaconHistory.Proofs.Stages

/-!
# Duties — the slots that are covered

The duties of a state are drawn for the slots from the start of its epoch up to where this epoch ends, a sum
of words that wraps in the last epoch.  Main statement: the duties have a proposer for the slots of the epoch
and for no others, unless the end wraps and there is none at all; and they stay the same as long as the state
stays in the epoch.
-/

namespace BeaconHistory

/-- `slot` is one of the slots of `epoch`. -/
def Spec.InEpoch (spec : Spec) (epoch slot : UInt64) : Prop :=
  spec.epochOf slot = Except.ok (ε := Failure Transition.Error) epoch

namespace Duties

variable {spec : Spec} {s t : State}

/-! ## 1. One proposer -/

theorem toNat_draw (mix : Root) (count slot : UInt64) :
    (draw mix count slot).toNat =
      Bytes.value ((Sha256.digest (mix.bytes ++ Bytes.ofWord slot)).take 8) % count.toNat := by
  have hlt := Bytes.value_lt ((Sha256.digest (mix.bytes ++ Bytes.ofWord slot)).take 8)
  have hlength : ((Sha256.digest (mix.bytes ++ Bytes.ofWord slot)).take 8).length = 8 := by
    rw [List.length_take, Sha256.length_digest]
    rfl
  rw [hlength] at hlt
  rw [draw, Bytes.toWord, UInt64.toNat_mod, UInt64.toNat_ofNat']
  exact congrArg (· % count.toNat) (Nat.mod_eq_of_lt hlt)

theorem draw_lt {count : UInt64} (hcount : count ≠ 0) (mix : Root) (slot : UInt64) :
    draw mix count slot < count := by
  have hpos : 0 < count.toNat := Nat.pos_of_ne_zero fun hzero => hcount (UInt64.toNat_inj.1 hzero)
  rw [UInt64.lt_iff_toNat_lt, toNat_draw]
  exact Nat.mod_lt _ hpos

/-! ## 2. The slots of an epoch -/

theorem length_slotsBetween (start stop : UInt64) :
    (slotsBetween start stop).length = stop.toNat - start.toNat := by
  simp [slotsBetween]

/-- The entry for a slot is found at its distance from the first one. -/
theorem getElem?_slotsBetween {start stop slot : UInt64} (hfrom : start ≤ slot) (hto : slot < stop) :
    (slotsBetween start stop)[(slot - start).toNat]? = some slot := by
  have hoffset := UInt64.toNat_sub_of_le slot start hfrom
  rw [UInt64.le_iff_toNat_le] at hfrom
  rw [UInt64.lt_iff_toNat_lt] at hto
  rw [slotsBetween, List.getElem?_map, List.getElem?_range (by omega), Option.map_some]
  congr 1
  rw [UInt64.ofNat_toNat, UInt64.add_comm, UInt64.sub_add_cancel]

theorem getElem?_slotsBetween_of_le {start stop slot : UInt64} (hfrom : start ≤ slot) (hto : stop ≤ slot) :
    (slotsBetween start stop)[(slot - start).toNat]? = none := by
  have hoffset := UInt64.toNat_sub_of_le slot start hfrom
  rw [UInt64.le_iff_toNat_le] at hto
  rw [List.getElem?_eq_none_iff, length_slotsBetween, hoffset]
  omega

/-- An epoch starts at or before each of its slots, so its start does not wrap. -/
theorem toNat_epochStart (spec : Spec) (slot : UInt64) :
    (spec.epochStart (slot / spec.slotsPerEpoch)).toNat =
      slot.toNat / spec.slotsPerEpoch.toNat * spec.slotsPerEpoch.toNat := by
  have hle := Nat.div_mul_le_self slot.toNat spec.slotsPerEpoch.toNat
  have hword := slot.toNat_lt
  rw [Spec.epochStart, UInt64.toNat_mul, UInt64.toNat_div]
  exact Nat.mod_eq_of_lt (by omega)

theorem inEpoch_iff (hepoch : spec.slotsPerEpoch ≠ 0) {epoch slot : UInt64} :
    spec.InEpoch epoch slot ↔ slot / spec.slotsPerEpoch = epoch := by
  unfold Spec.InEpoch Spec.epochOf
  rw [if_neg hepoch]
  exact ⟨Except.ok.inj, congrArg _⟩

-- The slots of an epoch are those from its start on, as many as an epoch has.
theorem inEpoch_iff_between (hepoch : spec.slotsPerEpoch ≠ 0) {slot other : UInt64} :
    spec.InEpoch (other / spec.slotsPerEpoch) slot ↔
      (spec.epochStart (other / spec.slotsPerEpoch)).toNat ≤ slot.toNat ∧
        slot.toNat < (spec.epochStart (other / spec.slotsPerEpoch)).toNat + spec.slotsPerEpoch.toNat := by
  have hpos : 0 < spec.slotsPerEpoch.toNat :=
    Nat.pos_of_ne_zero fun hzero => hepoch (UInt64.toNat_inj.1 hzero)
  rw [inEpoch_iff hepoch, toNat_epochStart, ← UInt64.toNat_inj, UInt64.toNat_div, UInt64.toNat_div,
    Nat.div_eq_iff hpos]
  omega

/-! ## 3. All duties -/

theorem ofState_eq_ok (hepoch : spec.slotsPerEpoch ≠ 0) (hcount : s.validatorCount ≠ 0) :
    ofState spec s = .ok {
      epoch := s.slot / spec.slotsPerEpoch
      startSlot := spec.epochStart (s.slot / spec.slotsPerEpoch)
      proposers := (slotsBetween (spec.epochStart (s.slot / spec.slotsPerEpoch))
        (spec.epochStart (s.slot / spec.slotsPerEpoch) + spec.slotsPerEpoch)).map
          (draw s.randaoMix s.validatorCount) } := by
  unfold ofState Spec.epochOf
  rw [if_neg hepoch]
  dsimp only
  rw [if_neg hcount]
  rfl

/-- Only the epoch, the randomness and the count of validators matter. -/
theorem ofState_congr (hslot : t.slot / spec.slotsPerEpoch = s.slot / spec.slotsPerEpoch)
    (hmix : t.randaoMix = s.randaoMix) (hcount : t.validatorCount = s.validatorCount) :
    ofState spec t = ofState spec s := by
  have hepoch : spec.epochOf (ε := Transition.Error) t.slot = spec.epochOf s.slot := by
    unfold Spec.epochOf
    rw [hslot]
  unfold ofState
  rw [hepoch, hmix, hcount]

/-- `d` has the proposer of every slot of its epoch, and of no other slot. -/
structure CoversEpoch (spec : Spec) (s : State) (d : Duties) : Prop where
  count : d.proposers.length = spec.slotsPerEpoch.toNat
  validators : ∀ v ∈ d.proposers, v < s.validatorCount
  covered : ∀ slot, spec.InEpoch d.epoch slot → ∃ v, d.proposer slot = .ok v ∧
    v.toNat = Bytes.value ((Sha256.digest (s.randaoMix.bytes ++ Bytes.ofWord slot)).take 8) %
      s.validatorCount.toNat
  others : ∀ slot, ¬ spec.InEpoch d.epoch slot →
    d.proposer slot = .refuse (.slotOutsideEpoch slot d.epoch)

/-- `d` has no proposer for any slot. -/
structure CoversNothing (d : Duties) : Prop where
  proposers : d.proposers = []
  slots : ∀ slot, d.proposer slot = .refuse (.slotOutsideEpoch slot d.epoch)

theorem proposer_eq_ok {d : Duties} {slot v : UInt64} (hfrom : d.startSlot ≤ slot)
    (h : d.proposers[(slot - d.startSlot).toNat]? = some v) : d.proposer slot = .ok v := by
  unfold proposer proposer?
  rw [if_neg (UInt64.not_lt.2 hfrom), h]

theorem proposer_eq_refuse {d : Duties} {slot : UInt64}
    (h : d.startSlot ≤ slot → d.proposers[(slot - d.startSlot).toNat]? = none) :
    d.proposer slot = .refuse (.slotOutsideEpoch slot d.epoch) := by
  unfold proposer proposer?
  by_cases hslot : slot < d.startSlot
  · rw [if_pos hslot]
  · rw [if_neg hslot, h (UInt64.not_lt.1 hslot)]

theorem coversEpoch (hepoch : spec.slotsPerEpoch ≠ 0) (hcount : s.validatorCount ≠ 0) {d : Duties}
    (h : ofState spec s = .ok d)
    (hfits : d.startSlot.toNat + spec.slotsPerEpoch.toNat < 2 ^ 64) : CoversEpoch spec s d := by
  rw [ofState_eq_ok hepoch hcount] at h
  cases h
  dsimp only at hfits
  have hstop := UInt64.toNat_add (spec.epochStart (s.slot / spec.slotsPerEpoch)) spec.slotsPerEpoch
  rw [Nat.mod_eq_of_lt hfits] at hstop
  constructor
  · rw [List.length_map, length_slotsBetween, hstop]
    omega
  · intro v hv
    obtain ⟨slot, -, rfl⟩ := List.mem_map.1 hv
    exact draw_lt hcount _ _
  · intro slot hslot
    obtain ⟨hfrom, hto⟩ := (inEpoch_iff_between hepoch).1 hslot
    have hfrom := UInt64.le_iff_toNat_le.2 hfrom
    refine ⟨draw s.randaoMix s.validatorCount slot, proposer_eq_ok hfrom ?_, toNat_draw _ _ _⟩
    rw [List.getElem?_map, getElem?_slotsBetween hfrom (UInt64.lt_iff_toNat_lt.2 (hstop ▸ hto))]
    rfl
  · intro slot hslot
    refine proposer_eq_refuse fun hfrom => ?_
    have hto : ¬ slot < spec.epochStart (s.slot / spec.slotsPerEpoch) + spec.slotsPerEpoch := by
      intro hto
      rw [UInt64.lt_iff_toNat_lt, hstop] at hto
      exact hslot ((inEpoch_iff_between hepoch).2 ⟨UInt64.le_iff_toNat_le.1 hfrom, hto⟩)
    rw [List.getElem?_map, getElem?_slotsBetween_of_le hfrom (UInt64.not_lt.1 hto)]
    rfl

-- An end that wraps lies before the start.
theorem coversNothing (hepoch : spec.slotsPerEpoch ≠ 0) (hcount : s.validatorCount ≠ 0) {d : Duties}
    (h : ofState spec s = .ok d)
    (hwraps : 2 ^ 64 ≤ d.startSlot.toNat + spec.slotsPerEpoch.toNat) : CoversNothing d := by
  rw [ofState_eq_ok hepoch hcount] at h
  cases h
  dsimp only at hwraps
  have hstop := UInt64.toNat_add (spec.epochStart (s.slot / spec.slotsPerEpoch)) spec.slotsPerEpoch
  have hstart := (spec.epochStart (s.slot / spec.slotsPerEpoch)).toNat_lt
  have hlength := spec.slotsPerEpoch.toNat_lt
  have hempty : (slotsBetween (spec.epochStart (s.slot / spec.slotsPerEpoch))
      (spec.epochStart (s.slot / spec.slotsPerEpoch) + spec.slotsPerEpoch)) = [] := by
    rw [← List.length_eq_zero_iff, length_slotsBetween, hstop]
    omega
  rw [hempty]
  exact ⟨rfl, fun slot => proposer_eq_refuse fun _ => rfl⟩

/-- Whatever its slot, a state with validators has duties: for the slots of its epoch and no others or, where
the end of the epoch is past the last word, for no slot at all.  They stay the same when the state advances
within its epoch. -/
theorem cover_epoch (hspec : spec.validate = .ok ()) (hcount : s.validatorCount ≠ 0) :
    ∃ d, ofState spec s = .ok d ∧ spec.InEpoch d.epoch s.slot ∧ d.startSlot = spec.epochStart d.epoch ∧
      (d.startSlot.toNat + spec.slotsPerEpoch.toNat < 2 ^ 64 → CoversEpoch spec s d) ∧
      (2 ^ 64 ≤ d.startSlot.toNat + spec.slotsPerEpoch.toNat → CoversNothing d) ∧
      ∀ target t, (Transition.processSlots spec target).reach s = .ok t → spec.InEpoch d.epoch target →
        ofState spec t = .ok d := by
  have hepoch := ((Spec.validate_eq_ok_iff spec).1 hspec).1
  have hduties := ofState_eq_ok hepoch hcount
  refine ⟨_, hduties, (inEpoch_iff hepoch).2 rfl, rfl, coversEpoch hepoch hcount hduties,
    coversNothing hepoch hcount hduties, ?_⟩
  intro target t h hsame
  rw [Transition.reach_processSlots] at h
  have hidles := State.idles_of_advanced h
  rw [inEpoch_iff hepoch, ← State.slot_of_advanced h] at hsame
  rw [ofState_congr hsame hidles.randaoMix hidles.validatorCount]
  exact hduties

-- The first epoch, and the last one, which has no end.
theorem cover_epoch_minimal :
    (∃ d, ofState .minimal (.genesis .minimal 4 .zero) = .ok d ∧
      CoversEpoch .minimal (.genesis .minimal 4 .zero) d) ∧
    ∃ d, ofState .minimal { State.genesis .minimal 4 .zero with slot := 18446744073709551615 } = .ok d ∧
      CoversNothing d := by
  have hspec : Spec.minimal.validate = .ok () := by decide
  have hepoch : Spec.minimal.slotsPerEpoch ≠ 0 := by decide
  constructor
  · obtain ⟨d, hd, hin, hstart, hcovers, -⟩ :=
      cover_epoch (s := .genesis .minimal 4 .zero) hspec (by decide)
    rw [inEpoch_iff hepoch] at hin
    rw [hstart, ← hin] at hcovers
    exact ⟨d, hd, hcovers (by decide)⟩
  · obtain ⟨d, hd, hin, hstart, -, hcovers, -⟩ :=
      cover_epoch (s := { State.genesis .minimal 4 .zero with slot := 18446744073709551615 }) hspec (by decide)
    rw [inEpoch_iff hepoch] at hin
    rw [hstart, ← hin] at hcovers
    exact ⟨d, hd, hcovers (by decide)⟩

end Duties

end BeaconHistory
