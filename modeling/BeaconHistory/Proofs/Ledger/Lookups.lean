import BeaconHistory.Proofs.Ledger.Ingest
import BeaconHistory.Proofs.Slots

/-!
# Ledger.Lookups — what a ledger serves

A ledger serves its records.  Main statements: each lookup finds exactly the record it is named for,
whatever indexes and walks it takes.
-/

namespace BeaconHistory.Ledger

variable {τ : Type} {l : Ledger τ} {accepted : Block → Prop} {first : Summary} {root : Root}
  {entry : Entry}

theorem serve_eq_ok_iff {missing : Query.Error} {record : Option Summary} :
    l.serve missing record = .ok entry ↔ ∃ s, record = some s ∧ entry = .filed s l.spec := by
  cases record with
  | none => exact ⟨fun h => (by cases h), fun ⟨_, h, _⟩ => (by cases h)⟩
  | some s =>
    constructor
    · intro h
      exact ⟨s, rfl, (Except.ok.inj h).symm⟩
    · rintro ⟨_, heq, rfl⟩
      cases heq
      rfl

namespace Keeps

theorem record?_iff (h : l.Keeps accepted first) {slot : UInt64} {s : Summary} :
    l.record? slot = some s ↔ s ∈ l.records.toList ∧ s.slot = slot := by
  obtain ⟨last, hlog⟩ := h.chronicle
  exact record?_eq_some_iff h.start hlog

theorem record_unique (h : l.Keeps accepted first) {s s' : Summary} (hs : s ∈ l.records.toList)
    (hs' : s' ∈ l.records.toList) (hslot : s.slot = s'.slot) : s = s' := by
  obtain ⟨last, hlog⟩ := h.chronicle
  exact hlog.eq_of_slot_eq hs hs' hslot

/-! ## 1. By position and block -/

theorem byPosition_eq_ok_iff [Archive τ] (h : l.Keeps accepted first) {p : Position} :
    Chain.byPosition l p = .ok entry ↔
      ∃ s ∈ l.records.toList, s.position = p ∧ entry = .filed s l.spec := by
  show (do (← l.opened).serve _ _) = _ ↔ _
  rw [opened_of_open h.opened]
  show l.serve _ ((l.record? p.slot).filter _) = _ ↔ _
  rw [serve_eq_ok_iff]
  constructor
  · rintro ⟨s, hs, rfl⟩
    obtain ⟨hs, hroot⟩ := Option.filter_eq_some_iff.1 hs
    obtain ⟨hmem, hslot⟩ := h.record?_iff.1 hs
    exact ⟨s, hmem, by rw [Summary.position, hslot, of_decide_eq_true hroot], rfl⟩
  · rintro ⟨s, hmem, rfl, rfl⟩
    exact ⟨s, Option.filter_eq_some_iff.2 ⟨h.record?_iff.2 ⟨hmem, rfl⟩, decide_eq_true rfl⟩, rfl⟩

-- The index of blocks has the first record of each.
theorem earliest_of_blocks (h : l.Keeps accepted first) {i : UInt64} (hi : l.blocks[root]? = some i) :
    ∃ s, Earliest (· ∈ l.records.toList) id root s ∧ s.slot = i := by
  obtain ⟨last, hlog⟩ := h.chronicle
  rw [h.blocks, Option.map_eq_some_iff] at hi
  obtain ⟨s, hfound, rfl⟩ := hi
  obtain ⟨hroot, before, after, hsplit, hbefore⟩ := List.find?_eq_some_iff_append.1 hfound
  have hslots := hlog.slots_pairwise
  rw [hsplit, List.pairwise_append] at hslots
  refine ⟨s, ⟨List.mem_of_find?_eq_some hfound, of_decide_eq_true hroot, fun q hq hqroot => ?_⟩, rfl⟩
  rw [hsplit] at hq
  rcases List.mem_append.1 hq with hq | hq
  · have hnot : (!decide (q.blockRoot = root)) = true := hbefore q hq
    rw [decide_eq_true (show q.blockRoot = root from hqroot)] at hnot
    cases hnot
  · rcases List.mem_cons.1 hq with rfl | hq
    · exact UInt64.le_refl _
    · exact UInt64.le_iff_toNat_le.2 (Nat.le_of_lt ((List.pairwise_cons.1 hslots.2.1).1 q hq))

theorem exists_blocks (h : l.Keeps accepted first) {s : Summary} (hs : s ∈ l.records.toList) :
    ∃ i, l.blocks[s.blockRoot]? = some i := by
  rw [h.blocks]
  cases hfound : l.records.toList.find? fun q => q.blockRoot = s.blockRoot with
  | some q => exact ⟨_, rfl⟩
  | none => exact absurd rfl (of_decide_eq_false (Bool.eq_false_iff.2 (List.find?_eq_none.1 hfound s hs)))

theorem byBlockRoot_eq_ok_iff [Archive τ] (h : l.Keeps accepted first) :
    Chain.byBlockRoot l root = .ok entry ↔
      ∃ s, Earliest (· ∈ l.records.toList) id root s ∧ entry = .filed s l.spec := by
  show (do (← l.opened).serve _ _) = _ ↔ _
  rw [opened_of_open h.opened]
  show l.serve _ (l.blocks[root]?.bind l.record?) = _ ↔ _
  rw [serve_eq_ok_iff]
  refine exists_congr fun s => and_congr_left fun _ => ?_
  rw [Option.bind_eq_some_iff]
  constructor
  · rintro ⟨i, hi, hs⟩
    obtain ⟨first, hfirst, rfl⟩ := h.earliest_of_blocks hi
    obtain ⟨hmem, hslot⟩ := h.record?_iff.1 hs
    rw [h.record_unique hmem hfirst.held hslot]
    exact hfirst
  · intro hs
    obtain ⟨i, hi⟩ := h.exists_blocks hs.held
    rw [show s.blockRoot = root from hs.root] at hi
    obtain ⟨first, hfirst, rfl⟩ := h.earliest_of_blocks hi
    have hslot : s.slot = first.slot := congrArg Position.slot (hs.position_eq hfirst)
    exact ⟨_, hi, h.record?_iff.2 ⟨hs.held, hslot⟩⟩

/-! ## 2. The run of a block -/

theorem lastOfRun_eq (l : Ledger τ) (root : Root) (n : Nat) (slot : UInt64) :
    l.lastOfRun root n slot = Slots.last (l.carries root) n slot := by
  induction n generalizing slot with
  | zero => rfl
  | succ n ih =>
    unfold lastOfRun Slots.last
    rw [ih]

theorem carries_iff (h : l.Keeps accepted first) {slot : UInt64} :
    l.carries root slot = true ↔ ∃ s ∈ l.records.toList, s.slot = slot ∧ s.blockRoot = root := by
  unfold carries
  rw [Option.any_eq_true]
  simp only [h.record?_iff, decide_eq_true_eq]
  exact exists_congr fun s => and_assoc

/-- The last step of a run up to `slot` is the latest record of the block. -/
theorem latest_lastOfRun (h : l.Keeps accepted first) (hd : Distinct accepted first.blockRoot)
    {s : Summary} (hs : Earliest (· ∈ l.records.toList) id root s) {bound : UInt64}
    (hbound : s.slot ≤ bound) {slot : UInt64}
    (hslot : l.lastOfRun root (bound.toNat - s.slot.toNat) s.slot = slot) :
    ∃ q, Latest (· ∈ l.records.toList) id root bound q ∧ q.slot = slot := by
  obtain ⟨last, hlog⟩ := h.chronicle
  have hle := UInt64.le_iff_toNat_le.1 hbound
  have hword := bound.toNat_lt
  rw [lastOfRun_eq] at hslot
  subst hslot
  have hreach : s.slot.toNat + (bound.toNat - s.slot.toNat) < 2 ^ 64 := by omega
  have hbounds := Slots.last_bounds (l.carries root) hreach
  have hlast := Slots.held_last (l.carries root) (bound.toNat - s.slot.toNat)
    (h.carries_iff.2 ⟨s, hs.held, rfl, hs.root⟩)
  obtain ⟨q, hq, hqslot, hqroot⟩ := h.carries_iff.1 hlast
  refine ⟨q, ⟨hq, hqroot, ?_, fun q' hq' hqroot' hqbound => ?_⟩, hqslot⟩
  · rw [id_eq, hqslot, UInt64.le_iff_toNat_le]
    omega
  · rw [id_eq] at hqroot' hqbound ⊢
    rw [id_eq, hqslot]
    rw [UInt64.le_iff_toNat_le] at hqbound ⊢
    refine Slots.le_last hreach ?_ (h.carries_iff.2 ⟨q', hq', rfl, hqroot'⟩) (by omega)
    -- A slot between two records of a block has a record, and no other block is carried there.
    intro i m hi hfrom hto
    obtain ⟨r, hr, hrslot, hrroot⟩ := h.carries_iff.1 hi
    obtain ⟨x, hx, hxslot⟩ := hlog.exists_at_slot
      (Nat.le_trans (hlog.first_slot_le hs.held) (UInt64.le_iff_toNat_le.1 hfrom))
      (Nat.le_trans (UInt64.le_iff_toNat_le.1 hto) (hrslot ▸ hlog.slot_le_last hr))
    have hsame := hlog.blockRoot_of_between hd hs.held hx hr (hxslot ▸ hfrom)
      (by rw [hxslot, hrslot]; exact hto) (hs.root.trans hrroot.symm)
    exact h.carries_iff.2 ⟨x, hx, hxslot, hsame.trans hrroot⟩

theorem exists_latest (h : l.Keeps accepted first) (hd : Distinct accepted first.blockRoot) {s : Summary}
    (hs : s ∈ l.records.toList) (hroot : s.blockRoot = root) {bound : UInt64} (hbound : s.slot ≤ bound) :
    ∃ q, Latest (· ∈ l.records.toList) id root bound q := by
  obtain ⟨i, hi⟩ := h.exists_blocks hs
  rw [hroot] at hi
  obtain ⟨r, hr, rfl⟩ := h.earliest_of_blocks hi
  obtain ⟨q, hq, -⟩ := h.latest_lastOfRun hd hr (UInt64.le_trans (hr.earliest s hs hroot) hbound) rfl
  exact ⟨q, hq⟩

theorem closest_eq_ok_iff (h : l.Keeps accepted first) (hd : Distinct accepted first.blockRoot)
    {bound : UInt64} :
    l.closest root bound = .ok entry ↔
      ∃ s, Latest (· ∈ l.records.toList) id root bound s ∧ entry = .filed s l.spec := by
  unfold closest
  rw [opened_of_open h.opened]
  dsimp only [bind, Except.bind]
  cases hi : l.blocks[root]? with
  | none =>
    refine ⟨fun h => (by cases h), fun ⟨s, hs, _⟩ => ?_⟩
    obtain ⟨i, hsome⟩ := h.exists_blocks hs.held
    rw [show s.blockRoot = root from hs.root, hi] at hsome
    cases hsome
  | some i =>
    obtain ⟨s, hs, rfl⟩ := h.earliest_of_blocks hi
    dsimp only
    by_cases hlt : bound < s.slot
    · rw [if_pos hlt]
      refine ⟨fun h => (by cases h), fun ⟨q, hq, _⟩ => ?_⟩
      exact absurd hlt (UInt64.not_lt.2 (UInt64.le_trans (hs.earliest q hq.held hq.root) hq.slot_le))
    · rw [if_neg hlt, serve_eq_ok_iff]
      obtain ⟨q, hq, hslot⟩ := h.latest_lastOfRun hd hs (UInt64.not_lt.1 hlt) rfl
      refine exists_congr fun q' => and_congr_left fun _ => ?_
      rw [h.record?_iff, ← hslot]
      constructor
      · rintro ⟨hmem, heq⟩
        rw [h.record_unique hmem hq.held heq]
        exact hq
      · intro hq'
        exact ⟨hq'.held, congrArg Position.slot (hq'.position_eq hq)⟩

/-! ## 3. By slot and state -/

theorem bySlot_eq_ok_iff (h : l.Keeps accepted first) {slot : UInt64} :
    l.bySlot slot = .ok entry ↔ ∃ s ∈ l.records.toList, s.slot = slot ∧ entry = .filed s l.spec := by
  rw [bySlot_of_open h.opened, serve_eq_ok_iff]
  simp only [h.record?_iff]
  exact exists_congr fun s => and_assoc

end Keeps

/-- The index of states holds the slot of the record with each root, and no other. -/
def Indexed (l : Ledger τ) : Prop :=
  ∀ (root : Root) (slot : UInt64), l.states[root]? = some slot ↔
    ∃ s ∈ l.records.toList, s.stateRoot = root ∧ s.slot = slot

theorem Keeps.byStateRoot_eq_ok_iff [Archive τ] (h : l.Keeps accepted first) (hindexed : l.Indexed) :
    Chain.byStateRoot l root = .ok entry ↔
      ∃ s ∈ l.records.toList, s.stateRoot = root ∧ entry = .filed s l.spec := by
  show (do (← l.opened).serve _ _) = _ ↔ _
  rw [opened_of_open h.opened]
  show l.serve _ (l.states[root]?.bind l.record?) = _ ↔ _
  rw [serve_eq_ok_iff]
  simp only [Option.bind_eq_some_iff, hindexed root, h.record?_iff]
  constructor
  · rintro ⟨s, ⟨i, ⟨q, hq, hroot, rfl⟩, hs, hslot⟩, rfl⟩
    rw [h.record_unique hs hq hslot]
    exact ⟨q, hq, hroot, rfl⟩
  · rintro ⟨s, hs, hroot, rfl⟩
    exact ⟨s, ⟨s.slot, ⟨s, hs, hroot, rfl⟩, hs, rfl⟩, rfl⟩

end BeaconHistory.Ledger
