import BeaconHistory.Proofs.Advance
import BeaconHistory.Proofs.Chronicle
import Mathlib.Data.List.Induction

/-!
# Replay — sequential execution

A state is replayed from an earlier one by applying the blocks of one branch in order and leaving the
empty slots after the last of them.  Main statements: one more empty slot and one more block extend a
replay, in whatever pieces the slots were left before, and only a state right after a block is not empty.
-/

namespace BeaconHistory

namespace State

variable {spec : Spec} {s t u : State}

/-! ## 1. Advancing in pieces -/

theorem leaveSlots_succ (spec : Spec) (n : Nat) (s : State) :
    s.leaveSlots spec (n + 1) = (do (← s.leaveSlot spec).leaveSlots spec n) := rfl

theorem leaveSlots_add (spec : Spec) (m n : Nat) (s : State) :
    s.leaveSlots spec (m + n) = (do (← s.leaveSlots spec m).leaveSlots spec n) := by
  induction m generalizing s with
  | zero =>
    rw [Nat.zero_add]
    rfl
  | succ m ih =>
    rw [Nat.succ_add, leaveSlots_succ, leaveSlots_succ]
    cases s.leaveSlot spec with
    | error e => rfl
    | ok t => exact ih t

theorem advanced_trans {mid target : UInt64} (h : s.advanced spec mid = .ok t)
    (h' : t.advanced spec target = .ok u) : s.advanced spec target = .ok u := by
  have hmid := slot_of_advanced h
  obtain ⟨hlt, hfit, hslots⟩ := advanced_eq_ok_iff.1 h
  obtain ⟨hlt', -, hslots'⟩ := advanced_eq_ok_iff.1 h'
  rw [hmid] at hlt' hslots'
  have hcount : target.toNat - s.slot.toNat =
      (mid.toNat - s.slot.toNat) + (target.toNat - mid.toNat) := by
    rw [UInt64.lt_iff_toNat_lt] at hlt hlt'
    omega
  refine advanced_eq_ok_iff.2 ⟨UInt64.lt_trans hlt hlt', hfit, ?_⟩
  rw [hcount, leaveSlots_add]
  exact Outcome.bind_eq_ok_iff.2 ⟨t, hslots, hslots'⟩

theorem atSlot_eq_ok_iff {slot : UInt64} :
    s.atSlot spec slot = .ok t ↔ s.advanced spec slot = .ok t ∨ slot ≤ s.slot ∧ s = t := by
  unfold atSlot
  by_cases hslot : slot > s.slot
  · rw [if_pos hslot]
    exact ⟨Or.inl, fun h => h.resolve_right fun hle => UInt64.not_le.2 hslot hle.1⟩
  · have hle := UInt64.not_lt.1 hslot
    rw [if_neg hslot]
    constructor
    · intro h
      exact Or.inr ⟨hle, Except.ok.inj h⟩
    · rintro (hadvanced | ⟨-, rfl⟩)
      · exact absurd (advanced_eq_ok_iff.1 hadvanced).1 hslot
      · rfl

-- A state that is at its slot already is left as it is.
theorem eq_of_atSlot {slot : UInt64} (hslot : s.slot = slot) (h : s.atSlot spec slot = .ok t) : s = t := by
  rcases atSlot_eq_ok_iff.1 h with hadvanced | ⟨-, heq⟩
  · exact absurd (advanced_eq_ok_iff.1 hadvanced).1 (hslot ▸ UInt64.lt_irrefl _)
  · exact heq

theorem headerSlot_of_atSlot {slot : UInt64} (h : s.atSlot spec slot = .ok t) :
    t.latestHeader.slot = s.latestHeader.slot := by
  rcases atSlot_eq_ok_iff.1 h with hadvanced | ⟨-, rfl⟩
  · exact headerSlot_of_advanced hadvanced
  · rfl

theorem advanced_of_atSlot {mid target : UInt64} (h : s.atSlot spec mid = .ok t)
    (h' : t.advanced spec target = .ok u) : s.advanced spec target = .ok u := by
  rcases atSlot_eq_ok_iff.1 h with hadvanced | ⟨-, rfl⟩
  · exact advanced_trans hadvanced h'
  · exact h'

theorem slot_of_atSlot {target : UInt64} (hle : s.slot ≤ target) (h : s.atSlot spec target = .ok t) :
    t.slot = target := by
  rcases atSlot_eq_ok_iff.1 h with hadvanced | ⟨hback, rfl⟩
  · exact slot_of_advanced hadvanced
  · exact UInt64.le_antisymm hle hback

theorem ringsFit_of_leaveSlots {n : Nat} (h : s.leaveSlots spec n = .ok t)
    (hfit : s.ringsFit spec = true) : t.ringsFit spec = true := by
  induction n generalizing s with
  | zero =>
    cases h
    exact hfit
  | succ n ih =>
    obtain ⟨u, hu, h⟩ := Outcome.bind_eq_ok_iff.1 h
    exact ih h (ringsFit_of_leaveSlot hu hfit)

-- Where the rings fit, the slots up to the target are left one by one, none of them if it is reached.
theorem atSlot_of_ringsFit {target : UInt64} (hle : s.slot ≤ target) (hfit : s.ringsFit spec = true) :
    s.atSlot spec target = s.leaveSlots spec (target.toNat - s.slot.toNat) := by
  unfold atSlot advanced
  by_cases hlt : target > s.slot
  · rw [if_pos hlt, if_neg (UInt64.not_le.2 hlt), if_pos hfit]
  · have hsame : target = s.slot := UInt64.le_antisymm (UInt64.not_lt.1 hlt) hle
    rw [if_neg hlt, hsame, Nat.sub_self]
    rfl

theorem exists_atSlot (hspec : spec.validate = .ok ()) {target : UInt64} (hle : s.slot ≤ target)
    (hfit : s.ringsFit spec = true) : ∃ t, s.atSlot spec target = .ok t := by
  rw [atSlot_of_ringsFit hle hfit]
  exact exists_leaveSlots (historyLength_ne_zero hspec) _ hfit

theorem ringsFit_of_advanced {target : UInt64} (h : s.advanced spec target = .ok t) :
    t.ringsFit spec = true := by
  obtain ⟨-, hfit, hleft⟩ := advanced_eq_ok_iff.1 h
  exact ringsFit_of_leaveSlots hleft hfit

theorem ringsFit_of_applyBlock {b : Block} (hfit : s.ringsFit spec = true)
    (h : (Transition.applyBlock spec b).reach s = .ok t) : t.ringsFit spec = true := by
  obtain ⟨pre, hpre, hheader, -⟩ := Transition.reach_applyBlock_eq_ok_iff.1 h
  have hpreFit : pre.ringsFit spec = true := by
    rcases atSlot_eq_ok_iff.1 hpre with hadvanced | ⟨-, rfl⟩
    · exact ringsFit_of_advanced hadvanced
    · exact hfit
  -- The header of the block leaves the rings alone.
  obtain ⟨-, -, -, rfl⟩ := eq_of_withHeader hheader
  exact hpreFit

/-- Stopping on the way changes neither the state that is reached nor the error. -/
theorem atSlot_trans {mid target : UInt64} (hmid : s.slot ≤ mid) (htarget : mid ≤ target) :
    s.atSlot spec target = (do (← s.atSlot spec mid).atSlot spec target) := by
  by_cases hfit : s.ringsFit spec = true
  · rw [atSlot_of_ringsFit (UInt64.le_trans hmid htarget) hfit, atSlot_of_ringsFit hmid hfit]
    have hcount : target.toNat - s.slot.toNat =
        (mid.toNat - s.slot.toNat) + (target.toNat - mid.toNat) := by
      rw [UInt64.le_iff_toNat_le] at hmid htarget
      omega
    rw [hcount, leaveSlots_add]
    cases hleft : s.leaveSlots spec (mid.toNat - s.slot.toNat) with
    | error e => rfl
    | ok t =>
      have hslot : t.slot = mid := slot_of_atSlot hmid ((atSlot_of_ringsFit hmid hfit).trans hleft)
      have htfit := ringsFit_of_leaveSlots hleft hfit
      show t.leaveSlots spec _ = t.atSlot spec target
      rw [atSlot_of_ringsFit (hslot ▸ htarget) htfit, hslot]
  · -- Rings that do not fit are noticed before anything is left.
    have hrefused {slot : UInt64} (hlt : slot > s.slot) : s.atSlot spec slot =
        .refuse (.historyLength spec.historyLength (min s.blockRoots.length s.stateRoots.length)) := by
      unfold atSlot advanced
      rw [if_pos hlt, if_neg (UInt64.not_le.2 hlt), if_neg hfit]
    by_cases hlt : mid > s.slot
    · rw [hrefused hlt, hrefused (UInt64.lt_of_lt_of_le hlt htarget)]
      rfl
    · have hstay : s.atSlot spec mid = .ok s := if_neg hlt
      rw [hstay]
      rfl

/-- The header of the latest block gets a state root when its slot is left. -/
def Sealable (s : State) : Prop := (s.sealedHeader s.root).stateRoot ≠ .zero

theorem sealable_of_root (h : s.root ≠ .zero) : s.Sealable := s.stateRoot_sealedHeader_ne_zero h

-- The header is filled in once, so the root of the latest block stays from then on.
theorem Sealable.leaveSlot (hs : s.Sealable) (h : s.leaveSlot spec = .ok t) :
    t.Sealable ∧ t.latestBlockRoot = s.latestBlockRoot := by
  obtain ⟨blockRoots, stateRoots, -, -, rfl⟩ := eq_of_leaveSlot h
  have hsealed : (s.sealedHeader s.root).stateRoot ≠ .zero := hs
  unfold Sealable latestBlockRoot
  rw [sealedHeader_of_ne_zero hsealed]
  exact ⟨hsealed, rfl⟩

theorem Sealable.leaveSlots {n : Nat} (hs : s.Sealable) (h : s.leaveSlots spec n = .ok t) :
    t.Sealable ∧ t.latestBlockRoot = s.latestBlockRoot := by
  induction n generalizing s with
  | zero =>
    cases h
    exact ⟨hs, rfl⟩
  | succ n ih =>
    obtain ⟨mid, hmid, h⟩ := Outcome.bind_eq_ok_iff.1 h
    obtain ⟨hmidSealable, hroot⟩ := hs.leaveSlot hmid
    obtain ⟨htSealable, hroot'⟩ := ih hmidSealable h
    exact ⟨htSealable, hroot'.trans hroot⟩

theorem Sealable.advanced {target : UInt64} (hs : s.Sealable) (h : s.advanced spec target = .ok t) :
    t.Sealable ∧ t.latestBlockRoot = s.latestBlockRoot :=
  hs.leaveSlots (advanced_eq_ok_iff.1 h).2.2

end State

/-! ## 2. Blocks in order -/

/-- The state after blocks are applied one after the other. -/
def State.replay (spec : Spec) (blocks : List Block) (s : State) : Outcome Transition.Error State :=
  blocks.foldlM (fun s b => (Transition.applyBlock spec b).reach s) s

/-- `blocks` lead from block `first` to block `last`: each was taken, builds on the one before, and is
later. -/
structure Leads (taken : Block → Prop) (first : Root) (blocks : List Block) (last : Root) : Prop where
  taken : ∀ b ∈ blocks, taken b
  linked : blocks.map (fun b => b.parentRoot) ++ [last] = first :: blocks.map Block.root
  ordered : blocks.Pairwise fun a b => a.slot < b.slot

/-- `s` is what `origin` becomes when `blocks` are applied and the empty slots after them are left. -/
structure Replays (taken : Block → Prop) (spec : Spec) (origin : State) (blocks : List Block) (s : State) :
    Prop where
  leads : Leads taken origin.latestBlockRoot blocks s.latestBlockRoot
  replayed : ∃ t, origin.replay spec blocks = .ok t ∧ t.atSlot spec s.slot = .ok s

section

variable {taken : Block → Prop} {spec : Spec} {origin s t : State} {blocks : List Block} {b : Block}

theorem State.replay_concat_eq_ok_iff :
    origin.replay spec (blocks ++ [b]) = .ok s ↔
      ∃ t, origin.replay spec blocks = .ok t ∧ (Transition.applyBlock spec b).reach t = .ok s := by
  unfold replay
  rw [List.foldlM_append, Outcome.bind_eq_ok_iff]
  refine exists_congr fun t => and_congr_right fun _ => ?_
  rw [List.foldlM_cons]
  simp only [List.foldlM_nil, bind_pure]

theorem Transition.headerSlot_of_applyBlock (h : (applyBlock spec b).reach s = .ok t) :
    s.latestHeader.slot < b.slot ∧ t.latestHeader.slot = b.slot ∧ t.slot = b.slot := by
  obtain ⟨pre, hpre, hheader, -⟩ := reach_applyBlock_eq_ok_iff.1 h
  obtain ⟨hslot, hnewer, -, rfl⟩ := State.eq_of_withHeader hheader
  rw [State.headerSlot_of_atSlot hpre] at hnewer
  exact ⟨hnewer, rfl, hslot.symm⟩

-- No block of a replay is later than the latest header.
theorem State.slot_le_of_replay (h : origin.replay spec blocks = .ok s) :
    ∀ b ∈ blocks, b.slot ≤ s.latestHeader.slot := by
  induction blocks using List.reverseRecOn generalizing s with
  | nil => exact fun b hb => (by cases hb)
  | append_singleton blocks b ih =>
    obtain ⟨t, ht, happlied⟩ := replay_concat_eq_ok_iff.1 h
    obtain ⟨hlt, hheader, -⟩ := Transition.headerSlot_of_applyBlock happlied
    intro b' hb'
    rw [hheader]
    rcases List.mem_append.1 hb' with hb' | hb'
    · exact UInt64.le_of_lt (UInt64.lt_of_le_of_lt (ih ht b' hb') hlt)
    · exact List.mem_singleton.1 hb' ▸ UInt64.le_refl _

theorem State.aged_of_replay (horigin : origin.Aged) (h : origin.replay spec blocks = .ok s) :
    s.Aged := by
  induction blocks using List.reverseRecOn with
  | nil =>
    cases h
    exact horigin
  | append_singleton blocks b _ =>
    obtain ⟨t, -, happlied⟩ := replay_concat_eq_ok_iff.1 h
    exact aged_of_applyBlock happlied

namespace Replays

theorem mono {taken' : Block → Prop} (hsub : ∀ b, taken b → taken' b)
    (h : Replays taken spec origin blocks s) : Replays taken' spec origin blocks s :=
  ⟨⟨fun b hb => hsub b (h.leads.taken b hb), h.leads.linked, h.leads.ordered⟩, h.replayed⟩

theorem start (taken : Block → Prop) (spec : Spec) (origin : State) :
    Replays taken spec origin [] origin := by
  refine ⟨⟨fun b hb => (by cases hb), rfl, List.Pairwise.nil⟩, origin, rfl, ?_⟩
  exact State.atSlot_eq_ok_iff.2 (Or.inr ⟨UInt64.le_refl _, rfl⟩)

/-- Leaving further slots extends a replay, if the latest block stays the same. -/
theorem advance (h : Replays taken spec origin blocks s) {target : UInt64}
    (hadvanced : s.advanced spec target = .ok t) (hroot : t.latestBlockRoot = s.latestBlockRoot) :
    Replays taken spec origin blocks t := by
  obtain ⟨after, hafter, hslot⟩ := h.replayed
  have hleads := h.leads
  rw [← hroot] at hleads
  refine ⟨hleads, after, hafter, ?_⟩
  rw [State.slot_of_advanced hadvanced]
  exact State.atSlot_eq_ok_iff.2 (Or.inl (State.advanced_of_atSlot hslot hadvanced))

/-- A block at the slot of a replayed state extends the replay. -/
theorem apply (h : Replays taken spec origin blocks s) (hb : taken b) (hslot : s.slot = b.slot)
    (happlied : (Transition.applyBlock spec b).reach s = .ok t) :
    Replays taken spec origin (blocks ++ [b]) t := by
  obtain ⟨after, hafter, hat⟩ := h.replayed
  obtain ⟨pre, hpre, hheader, hroot⟩ := Transition.reach_applyBlock_eq_ok_iff.1 happlied
  have hsame := State.eq_of_atSlot hslot hpre
  subst hsame
  have hreplay : (Transition.applyBlock spec b).reach after = .ok t :=
    Transition.reach_applyBlock_eq_ok_iff.2 ⟨s, hslot ▸ hat, hheader, hroot⟩
  obtain ⟨hnewer, -, htSlot⟩ := Transition.headerSlot_of_applyBlock hreplay
  obtain ⟨-, -, hparent, -⟩ := State.eq_of_withHeader hheader
  have hlast : t.latestBlockRoot = b.root :=
    congrArg Summary.blockRoot (Transition.summary_of_applyBlock happlied)
  refine ⟨⟨?_, ?_, ?_⟩, t, State.replay_concat_eq_ok_iff.2 ⟨after, hafter, hreplay⟩, ?_⟩
  · intro b' hb'
    rcases List.mem_append.1 hb' with hb' | hb'
    · exact h.leads.taken b' hb'
    · exact List.mem_singleton.1 hb' ▸ hb
  · have hlinked := h.leads.linked
    rw [← hparent] at hlinked
    rw [List.map_append, List.map_append, List.map_singleton, List.map_singleton, hlinked, hlast]
    rfl
  · rw [List.pairwise_append]
    refine ⟨h.leads.ordered, List.pairwise_singleton _ _, fun a ha b' hb' => ?_⟩
    rw [List.mem_singleton.1 hb']
    exact UInt64.lt_of_le_of_lt (State.slot_le_of_replay hafter a ha) hnewer
  · exact State.atSlot_eq_ok_iff.2 (Or.inr ⟨UInt64.le_refl _, rfl⟩)

/-- A replayed state that holds a block at its slot is the origin or comes right after the last block. -/
theorem summary_eq (h : Replays taken spec origin blocks s) (horigin : origin.Aged)
    (hblock : (Summary.ofState s).isEmpty = false) :
    s = origin ∨ ∃ b, blocks.getLast? = some b ∧ Summary.ofState s = .ofBlock b := by
  obtain ⟨after, hafter, hat⟩ := h.replayed
  rcases State.atSlot_eq_ok_iff.1 hat with hadvanced | ⟨-, heq⟩
  · have hempty := (State.aged_of_replay horigin hafter).not_hasBlockAtSlot hadvanced
    rw [Summary.isEmpty_ofState, hempty] at hblock
    cases hblock
  · subst heq
    induction blocks using List.reverseRecOn with
    | nil => exact Or.inl (Except.ok.inj hafter).symm
    | append_singleton blocks b _ =>
      obtain ⟨t, -, happlied⟩ := State.replay_concat_eq_ok_iff.1 hafter
      exact Or.inr ⟨b, List.getLast?_concat, Transition.summary_of_applyBlock happlied⟩

end Replays

end

end BeaconHistory
