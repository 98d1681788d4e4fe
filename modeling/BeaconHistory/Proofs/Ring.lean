import BeaconHistory.Proofs.Frontier.Derived

/-!
# Ring — what a state remembers of earlier blocks

A state has one cell for the root of the latest block of every slot that it has left, and uses the same
cell again after as many slots as the ring is long.  Main statement: along a branch, the cells that are
still in reach have the roots of the entries of that branch.
-/

namespace BeaconHistory

namespace State

variable {spec : Spec} {s t : State} {slot : UInt64} {root : Root} {log : List Summary}

/-- `slot` is earlier than `s`, by no more slots than the ring is long. -/
structure LooksBack (spec : Spec) (s : State) (slot : UInt64) : Prop where
  earlier : slot < s.slot
  within : s.slot.toNat ≤ slot.toNat + spec.historyLength.toNat
  word : slot.toNat + spec.historyLength.toNat < 2 ^ 64

-- The cell of a slot that is in reach is what is answered for it.
theorem blockRootAt_of_cell (hback : s.LooksBack spec slot)
    (hcell : s.blockRoots[slot.toNat % spec.historyLength.toNat]? = some root) :
    s.blockRootAt spec slot = .ok root := by
  have hearlier := UInt64.lt_iff_toNat_lt.1 hback.earlier
  have hwithin := hback.within
  have hword := hback.word
  have hsum : (slot + spec.historyLength).toNat = slot.toNat + spec.historyLength.toNat := by
    rw [UInt64.toNat_add]
    omega
  have hlength : spec.historyLength ≠ 0 := by
    intro hzero
    rw [hzero, UInt64.toNat_zero] at hwithin
    omega
  have hrange : ¬ (s.slot ≤ slot ∨ slot + spec.historyLength < s.slot) := by
    rw [UInt64.le_iff_toNat_le, UInt64.lt_iff_toNat_lt]
    omega
  unfold blockRootAt Spec.ringIndex
  rw [if_neg hrange, if_neg hlength]
  dsimp only [bind, Except.bind]
  rw [UInt64.toNat_mod, hcell]
  rfl

/-! ## 1. One slot -/

/-- `t` is one slot later than `s`, and has the latest block of `s` in the cell of that slot. -/
structure Recorded (spec : Spec) (s t : State) : Prop where
  slot : t.slot.toNat = s.slot.toNat + 1
  bound : s.slot.toNat % spec.historyLength.toNat < s.blockRoots.length
  ring : t.blockRoots = s.blockRoots.set (s.slot.toNat % spec.historyLength.toNat) s.latestBlockRoot

/-- Leaving a slot writes its cell in both rings. -/
theorem rings_of_leaveSlot (h : s.leaveSlot spec = .ok t) :
    s.slot.toNat % spec.historyLength.toNat < s.blockRoots.length ∧
      s.slot.toNat % spec.historyLength.toNat < s.stateRoots.length ∧
      t.blockRoots = s.blockRoots.set (s.slot.toNat % spec.historyLength.toNat) s.latestBlockRoot ∧
      t.stateRoots = s.stateRoots.set (s.slot.toNat % spec.historyLength.toNat) s.root := by
  unfold leaveSlot at h
  obtain ⟨index, hindex, h⟩ := Outcome.bind_eq_ok_iff.1 h
  obtain ⟨stateRoots, hstate, h⟩ := Outcome.bind_eq_ok_iff.1 h
  obtain ⟨blockRoots, hblock, h⟩ := Outcome.bind_eq_ok_iff.1 h
  obtain ⟨hstateBound, rfl⟩ := writeRing_eq_ok hstate
  obtain ⟨hblockBound, rfl⟩ := writeRing_eq_ok hblock
  cases h
  have hcell : index = s.slot.toNat % spec.historyLength.toNat := by
    unfold Spec.ringIndex at hindex
    split at hindex
    · cases hindex
    · cases hindex
      exact UInt64.toNat_mod _ _
  subst hcell
  exact ⟨hblockBound, hstateBound, rfl, rfl⟩

theorem recorded_of_advanced (h : s.advanced spec (s.slot + 1) = .ok t) : s.Recorded spec t := by
  obtain ⟨hlt, -, -⟩ := advanced_eq_ok_iff.1 h
  have hword : s.slot.toNat + 1 < 2 ^ 64 := by
    rw [UInt64.lt_iff_toNat_lt, UInt64.toNat_add, UInt64.toNat_one] at hlt
    have := s.slot.toNat_lt
    omega
  have hslot : t.slot.toNat = s.slot.toNat + 1 := by
    rw [slot_of_advanced h, Slots.toNat_add_one _ hword]
  obtain ⟨hbound, -, hring, -⟩ := rings_of_leaveSlot (leaveSlot_of_advanced hword h)
  exact ⟨hslot, hbound, hring⟩

end State

theorem Next.recorded {taken : Block → Prop} {spec : Spec} {s : State} {e : Snapshot}
    (h : Next taken spec s e) : s.Recorded spec e.state := by
  cases h with
  | empty _ hstate => exact State.recorded_of_advanced hstate
  | @block b _ _ hslot hstate =>
    -- The block replaces the header of the state it is applied to, and leaves its rings.
    obtain ⟨pre, hpre, hheader, -⟩ := Transition.reach_applyBlock_eq_ok_iff.1 hstate
    obtain ⟨hpreSlot, -, -, hpost⟩ := State.eq_of_withHeader hheader
    rcases State.atSlot_eq_ok_iff.1 hpre with hadvanced | ⟨-, rfl⟩
    · rw [hslot] at hadvanced
      obtain ⟨hnext, hbound, hring⟩ := State.recorded_of_advanced hadvanced
      exact ⟨by rw [hpost]; exact hnext, hbound, by rw [hpost]; exact hring⟩
    · rw [hslot] at hpreSlot
      have := congrArg UInt64.toNat hpreSlot
      rw [UInt64.toNat_add, UInt64.toNat_one] at this
      have := s.slot.toNat_lt
      omega

/-! ## 2. A branch -/

-- Slots with one cell are a whole number of rings apart.
theorem State.cell_ne {i j n : Nat} (hlt : j < i) (hnear : i < j + n) : i % n ≠ j % n := by
  intro hsame
  have hdvd := Nat.dvd_of_mod_eq_zero (Nat.sub_mod_eq_zero_of_mod_eq hsame)
  have := Nat.le_of_dvd (by omega) hdvd
  omega

/-- The ring of `s` has the block roots of those entries of `log` that are still in reach. -/
def State.Recalls (spec : Spec) (log : List Summary) (s : State) : Prop :=
  ∀ q ∈ log, q.slot.toNat < s.slot.toNat → s.slot.toNat ≤ q.slot.toNat + spec.historyLength.toNat →
    s.blockRoots[q.slot.toNat % spec.historyLength.toNat]? = some q.blockRoot

theorem State.Recalls.blockRootAt {spec : Spec} {log : List Summary} {s : State} (h : s.Recalls spec log)
    {q : Summary} (hq : q ∈ log) (hback : s.LooksBack spec q.slot) :
    s.blockRootAt spec q.slot = .ok q.blockRoot :=
  blockRootAt_of_cell hback (h q hq (UInt64.lt_iff_toNat_lt.1 hback.earlier) hback.within)

/-- The one cell that is written when a slot is left is that of the entry of this slot, which no earlier
entry in reach shares. -/
theorem State.Recalls.next {spec : Spec} {log : List Summary} {s t : State} (h : s.Recalls spec log)
    (hlast : ∀ q ∈ log, q.slot = s.slot → q.blockRoot = s.latestBlockRoot)
    (hrecorded : s.Recorded spec t) {e : Summary} (he : e.slot = t.slot) :
    t.Recalls spec (log ++ [e]) := by
  obtain ⟨hslot, hbound, hring⟩ := hrecorded
  intro q hq hearlier hwithin
  rcases List.mem_append.1 hq with hq | hq
  · rw [hring]
    rw [hslot] at hearlier hwithin
    by_cases hnow : q.slot.toNat = s.slot.toNat
    · rw [hnow, List.getElem?_set_self hbound, hlast q hq (UInt64.toNat_inj.1 hnow)]
    · rw [List.getElem?_set_ne (cell_ne (by omega) (by omega))]
      exact h q hq (by omega) (by omega)
  · rw [List.mem_singleton.1 hq, he] at hearlier
    exact absurd hearlier (Nat.lt_irrefl _)

end BeaconHistory
