import BeaconHistory.Proofs.Production
import BeaconHistory.Proofs.Ring

/-!
# Departures — what a run leaves in the rings

A run takes a state from slot to slot, and each slot that is left goes on record in the rings.  Main
statement: after any run from genesis the rings have, for every slot in reach, the state as it stood when
this slot was left, and with it the latest block up to this slot.
-/

namespace BeaconHistory

/-! ## 1. Runs -/

-- The states that are left when `n` slots are left one after the other.
def State.departures (spec : Spec) : Nat → State → List State
  | 0, _ => []
  | n + 1, s => s :: match s.leaveSlot spec with
    | .ok t => t.departures spec n
    | .error _ => []

namespace Transition

/-- What moves a state on. -/
inductive Call where
  | processSlots (target : UInt64)
  | applyBlock (b : Block)

namespace Call

def perform (spec : Spec) : Call → Transition Unit
  | processSlots target => Transition.processSlots spec target
  | applyBlock b => Transition.applyBlock spec b

-- The slot that the call leads to.
def target : Call → UInt64
  | processSlots target => target
  | applyBlock b => b.slot

def block? : Call → Option Block
  | processSlots _ => none
  | applyBlock b => some b

/-- The states as they stand when the call leaves their slots: first the state it is made on. -/
def departures (spec : Spec) (c : Call) (s : State) : List State :=
  s.departures spec (c.target.toNat - s.slot.toNat)

end Call

/-- The state after calls that all succeed. -/
def follow (spec : Spec) : List Call → State → Outcome Error State
  | [], s => .ok s
  | c :: calls, s => do follow spec calls (← (c.perform spec).reach s)

/-- The states as they stand when their slots are left by the calls. -/
def departures (spec : Spec) : List Call → State → List State
  | [], _ => []
  | c :: calls, s => c.departures spec s ++ match (c.perform spec).reach s with
    | .ok t => departures spec calls t
    | .error _ => []

def blocks (calls : List Call) : List Block := calls.filterMap Call.block?

end Transition

/-! ## 2. Passages -/

/-- Leaving slots and putting on blocks one by one takes `origin` to `s`. -/
inductive Passage (spec : Spec) (origin : State) : List State → List Block → State → Prop where
  | start : Passage spec origin [] [] origin
  | leave {left : List State} {blocks : List Block} {s t : State} (h : Passage spec origin left blocks s)
      (hleave : s.leaveSlot spec = .ok t) (hword : s.slot.toNat + 1 < 2 ^ 64) :
      Passage spec origin (left ++ [s]) blocks t
  | block {left : List State} {blocks : List Block} {s t : State} {b : Block}
      (h : Passage spec origin left blocks s) (hheader : s.withHeader spec b = .ok t)
      (hroot : t.root = b.stateRoot) : Passage spec origin left (blocks ++ [b]) t

namespace Passage

variable {spec : Spec} {origin s t : State} {left : List State} {blocks : List Block}

theorem leaveSlots (h : Passage spec origin left blocks s) {n : Nat}
    (hleave : s.leaveSlots spec n = .ok t) (hword : s.slot.toNat + n < 2 ^ 64) :
    Passage spec origin (left ++ s.departures spec n) blocks t := by
  induction n generalizing left s with
  | zero =>
    cases hleave
    rw [State.departures, List.append_nil]
    exact h
  | succ n ih =>
    obtain ⟨u, hu, hleave⟩ := Outcome.bind_eq_ok_iff.1 hleave
    have hslot : u.slot.toNat = s.slot.toNat + 1 := by
      rw [State.slot_of_leaveSlot hu, Slots.toNat_add_one _ (by omega)]
    have hrest := ih (h.leave hu (by omega)) hleave (by omega)
    rw [State.departures, hu]
    rw [List.append_assoc] at hrest
    exact hrest

theorem atSlot (h : Passage spec origin left blocks s) {slot : UInt64}
    (hat : s.atSlot spec slot = .ok t) :
    Passage spec origin (left ++ s.departures spec (slot.toNat - s.slot.toNat)) blocks t := by
  have hword := slot.toNat_lt
  rcases State.atSlot_eq_ok_iff.1 hat with hadvanced | ⟨hle, rfl⟩
  · obtain ⟨hlt, -, hleave⟩ := State.advanced_eq_ok_iff.1 hadvanced
    rw [UInt64.lt_iff_toNat_lt] at hlt
    exact h.leaveSlots hleave (by omega)
  · rw [UInt64.le_iff_toNat_le] at hle
    rw [Nat.sub_eq_zero_of_le hle, State.departures, List.append_nil]
    exact h

theorem call (h : Passage spec origin left blocks s) {c : Transition.Call}
    (hcall : (c.perform spec).reach s = .ok t) :
    Passage spec origin (left ++ c.departures spec s) (blocks ++ c.block?.toList) t := by
  cases c with
  | processSlots target =>
    have hadvanced : s.advanced spec target = .ok t := (Transition.reach_processSlots _ _ _).symm.trans hcall
    have hpassage := h.atSlot (State.atSlot_eq_ok_iff.2 (Or.inl hadvanced))
    rw [Transition.Call.block?, Option.toList_none, List.append_nil]
    exact hpassage
  | applyBlock b =>
    obtain ⟨pre, hpre, hheader, hroot⟩ := Transition.reach_applyBlock_eq_ok_iff.1 hcall
    exact (h.atSlot hpre).block hheader hroot

theorem follow {calls : List Transition.Call} (h : Passage spec origin left blocks s)
    (hfollow : Transition.follow spec calls s = .ok t) :
    Passage spec origin (left ++ Transition.departures spec calls s)
      (blocks ++ Transition.blocks calls) t := by
  induction calls generalizing left blocks s with
  | nil =>
    cases hfollow
    rw [Transition.departures, Transition.blocks, List.filterMap_nil, List.append_nil, List.append_nil]
    exact h
  | cons c calls ih =>
    obtain ⟨u, hu, hfollow⟩ := Outcome.bind_eq_ok_iff.1 hfollow
    have hrest := ih (h.call hu) hfollow
    have hblocks : Transition.blocks (c :: calls) = c.block?.toList ++ Transition.blocks calls := by
      unfold Transition.blocks
      cases hblock : c.block? with
      | none => rw [List.filterMap_cons_none hblock, Option.toList_none, List.nil_append]
      | some b => rw [List.filterMap_cons_some hblock]; rfl
    rw [Transition.departures, hu, hblocks, ← List.append_assoc, ← List.append_assoc]
    exact hrest

/-! ## 3. The rings -/

/-- The rings of `s` have the roots of those states in `left` that are still in reach, which were left one
slot after the other; the cells of no such state are those of the origin. -/
structure Recorded (spec : Spec) (origin : State) (left : List State) (s : State) : Prop where
  slot : s.slot.toNat = origin.slot.toNat + left.length
  slots : left.map (fun d => d.slot.toNat) = List.range' origin.slot.toNat left.length
  blockRoots : ∀ d ∈ left, s.slot.toNat ≤ d.slot.toNat + spec.historyLength.toNat →
    s.blockRoots[d.slot.toNat % spec.historyLength.toNat]? = some d.latestBlockRoot
  stateRoots : ∀ d ∈ left, s.slot.toNat ≤ d.slot.toNat + spec.historyLength.toNat →
    s.stateRoots[d.slot.toNat % spec.historyLength.toNat]? = some d.root
  untouched : ∀ cell, (∀ d ∈ left, d.slot.toNat % spec.historyLength.toNat ≠ cell) →
    s.blockRoots[cell]? = origin.blockRoots[cell]?

theorem Recorded.slot_bounds (h : Recorded spec origin left s) {d : State} (hd : d ∈ left) :
    origin.slot.toNat ≤ d.slot.toNat ∧ d.slot.toNat < s.slot.toNat := by
  have hmem : d.slot.toNat ∈ left.map fun d => d.slot.toNat := List.mem_map_of_mem hd
  rw [h.slots, List.mem_range'_1] at hmem
  have hslot := h.slot
  omega

theorem Recorded.exists_left (h : Recorded spec origin left s) {slot : UInt64} (hfrom : origin.slot ≤ slot)
    (hto : slot < s.slot) : ∃ d ∈ left, d.slot = slot := by
  rw [UInt64.le_iff_toNat_le] at hfrom
  rw [UInt64.lt_iff_toNat_lt, h.slot] at hto
  have hmem : slot.toNat ∈ left.map fun d => d.slot.toNat := by
    rw [h.slots, List.mem_range'_1]
    exact ⟨hfrom, hto⟩
  obtain ⟨d, hd, hslot⟩ := List.mem_map.1 hmem
  exact ⟨d, hd, UInt64.toNat_inj.1 hslot⟩

-- The cell that is written belongs to none of the states that stay in reach.
theorem Recorded.leave (h : Recorded spec origin left s) (hleave : s.leaveSlot spec = .ok t)
    (hword : s.slot.toNat + 1 < 2 ^ 64) : Recorded spec origin (left ++ [s]) t := by
  have hslot : t.slot.toNat = s.slot.toNat + 1 := by
    rw [State.slot_of_leaveSlot hleave, Slots.toNat_add_one _ hword]
  obtain ⟨hblockBound, hstateBound, hblocks, hstates⟩ := State.rings_of_leaveSlot hleave
  constructor
  · rw [hslot, h.slot, List.length_append, List.length_singleton, Nat.add_assoc]
  · rw [List.map_append, List.length_append, List.length_singleton, List.range'_1_concat, h.slots, ← h.slot,
      List.map_singleton]
  · intro d hd hreach
    rw [hblocks]
    rcases List.mem_append.1 hd with hd | hd
    · have hlt := (h.slot_bounds hd).2
      rw [List.getElem?_set_ne (State.cell_ne (by omega) (by omega))]
      exact h.blockRoots d hd (by omega)
    · rw [List.mem_singleton.1 hd, List.getElem?_set_self hblockBound]
  · intro d hd hreach
    rw [hstates]
    rcases List.mem_append.1 hd with hd | hd
    · have hlt := (h.slot_bounds hd).2
      rw [List.getElem?_set_ne (State.cell_ne (by omega) (by omega))]
      exact h.stateRoots d hd (by omega)
    · rw [List.mem_singleton.1 hd, List.getElem?_set_self hstateBound]
  · intro cell hcell
    rw [hblocks, List.getElem?_set_ne (hcell s (List.mem_append_right _ (List.mem_singleton_self s)))]
    exact h.untouched cell fun d hd => hcell d (List.mem_append_left _ hd)

theorem recorded (h : Passage spec origin left blocks s) : Recorded spec origin left s := by
  induction h with
  | start =>
    exact ⟨rfl, rfl, fun _ h => (by cases h), fun _ h => (by cases h), fun _ _ => rfl⟩
  | leave _ hleave hword ih => exact ih.leave hleave hword
  | block _ hheader _ ih =>
    -- A block replaces the header of a state, and leaves its slot and its rings.
    obtain ⟨-, -, -, rfl⟩ := State.eq_of_withHeader hheader
    exact ⟨ih.slot, ih.slots, ih.blockRoots, ih.stateRoots, ih.untouched⟩

/-! ## 4. The latest block -/

-- The root of the last of the blocks, or of the latest block of the origin if there is none.
def tip (origin : State) (blocks : List Block) : Root :=
  (blocks.getLast?.map Block.root).getD origin.latestBlockRoot

theorem tip_concat (origin : State) (blocks : List Block) (b : Block) :
    tip origin (blocks ++ [b]) = b.root := by
  rw [tip, List.getLast?_concat]
  rfl

/-- The latest block of each state is the last of the blocks up to its slot. -/
structure Tipped (origin : State) (left : List State) (blocks : List Block) (s : State) : Prop where
  bound : ∀ b ∈ blocks, b.slot ≤ s.slot
  now : s.latestBlockRoot = tip origin blocks
  left : ∀ d ∈ left, d.latestBlockRoot = tip origin (blocks.filter fun b => b.slot ≤ d.slot)

theorem tipped (h : Passage spec origin left blocks s) (hroots : ∀ d ∈ left, d.root ≠ .zero) :
    Tipped origin left blocks s := by
  induction h with
  | start => exact ⟨fun _ h => (by cases h), rfl, fun _ h => (by cases h)⟩
  | @leave left blocks s t h hleave hword ih =>
    obtain ⟨hrootsBefore, hroot⟩ := List.forall_mem_append.1 hroots
    obtain ⟨hbound, hnow, hleft⟩ := ih hrootsBefore
    have hslot := State.slot_of_leaveSlot hleave
    refine ⟨fun b hb => ?_, ?_, fun d hd => ?_⟩
    · have hle := hbound b hb
      rw [hslot]
      rw [UInt64.le_iff_toNat_le] at hle ⊢
      rw [Slots.toNat_add_one _ hword]
      omega
    · rw [State.latestBlockRoot_of_leaveSlot hleave (hroot s (List.mem_singleton_self s)), hnow]
    · rcases List.mem_append.1 hd with hd | hd
      · exact hleft d hd
      · -- All blocks so far are up to the slot that is left now.
        rw [List.mem_singleton.1 hd, List.filter_eq_self.2 fun b hb => decide_eq_true (hbound b hb)]
        exact hnow
  | @block left blocks s t b h hheader hroot ih =>
    obtain ⟨hbound, -, hleft⟩ := ih hroots
    obtain ⟨hslot, -, -, ht⟩ := State.eq_of_withHeader hheader
    have htSlot : t.slot = s.slot := by rw [ht]
    refine ⟨fun b' hb' => ?_, ?_, fun d hd => ?_⟩
    · rw [htSlot]
      rcases List.mem_append.1 hb' with hb' | hb'
      · exact hbound b' hb'
      · exact List.mem_singleton.1 hb' ▸ UInt64.le_of_eq hslot
    · have hat : s.atSlot spec b.slot = .ok s :=
        State.atSlot_eq_ok_iff.2 (Or.inr ⟨UInt64.le_of_eq hslot, rfl⟩)
      have hcarried := Transition.carried_of_applyBlock
        (Transition.reach_applyBlock_eq_ok_iff.2 ⟨s, hat, hheader, hroot⟩)
      rw [tip_concat]
      exact hcarried.blockRoot
    · -- The block is later than the states that were left.
      have hlt := UInt64.lt_iff_toNat_lt.2 (h.recorded.slot_bounds hd).2
      have hnot : ¬ b.slot ≤ d.slot := UInt64.not_le.2 (hslot ▸ hlt)
      rw [List.filter_append, List.filter_cons_of_neg (by simpa using hnot), List.filter_nil, List.append_nil]
      exact hleft d hd

end Passage

/-! ## 5. What a state answers -/

-- An answer is given for the slots in reach only: a sum that wraps is below the slot it starts from.
theorem State.looksBack_of_blockRootAt {spec : Spec} {s : State} {slot : UInt64} {root : Root}
    (h : s.blockRootAt spec slot = .ok root) : s.LooksBack spec slot := by
  unfold blockRootAt at h
  split at h
  · cases h
  next hrange =>
  obtain ⟨hearlier, hwithin⟩ := not_or.1 hrange
  rw [UInt64.not_le] at hearlier
  rw [UInt64.not_lt, UInt64.le_iff_toNat_le, UInt64.toNat_add] at hwithin
  have hlt := UInt64.lt_iff_toNat_lt.1 hearlier
  have hword := slot.toNat_lt
  have hlength := spec.historyLength.toNat_lt
  have hfits : slot.toNat + spec.historyLength.toNat < 2 ^ 64 := by omega
  rw [Nat.mod_eq_of_lt hfits] at hwithin
  exact ⟨hearlier, hwithin, hfits⟩

namespace Transition

variable {spec : Spec} {s : State} {slot : UInt64}

/-- What `s` answers for `slot`, after `calls` that started from `origin`. -/
structure Remembers (spec : Spec) (origin : State) (calls : List Call) (s : State) (slot : UInt64) : Prop where
  answered : (∃ root, s.blockRootAt spec slot = .ok root) ↔ s.LooksBack spec slot
  -- No slot before the origin has a root.
  before : s.LooksBack spec slot → slot < origin.slot → s.blockRootAt spec slot = .ok .zero
  left : s.LooksBack spec slot → origin.slot ≤ slot → ∃ d ∈ departures spec calls origin, d.slot = slot
  roots : s.LooksBack spec slot → ∀ d ∈ departures spec calls origin, d.slot = slot →
    s.blockRootAt spec slot = .ok d.latestBlockRoot ∧
      s.stateRoots[(slot % spec.historyLength).toNat]? = some d.root
  latest : s.LooksBack spec slot → origin.slot ≤ slot → (∀ d ∈ departures spec calls origin, d.root ≠ .zero) →
    s.blockRootAt spec slot = .ok (Passage.tip origin ((blocks calls).filter fun b => b.slot ≤ slot))

/-- After any run of calls that succeed, from genesis on, a state tells the root of the latest block for every
slot in reach and for no other: for a slot that was left, as it was then. -/
theorem remembers_of_run {validatorCount : UInt64} {randaoMix : Root} {calls : List Call}
    (hrun : follow spec calls (.genesis spec validatorCount randaoMix) = .ok s) (slot : UInt64) :
    Remembers spec (.genesis spec validatorCount randaoMix) calls s slot := by
  have hpassage := Passage.start.follow hrun
  rw [List.nil_append, List.nil_append] at hpassage
  have hrings := hpassage.recorded
  -- What is answered for a slot that was left.
  have hroots (hback : s.LooksBack spec slot) :
      ∀ d ∈ departures spec calls (.genesis spec validatorCount randaoMix), d.slot = slot →
        s.blockRootAt spec slot = .ok d.latestBlockRoot ∧
          s.stateRoots[(slot % spec.historyLength).toNat]? = some d.root := by
    rintro d hd rfl
    rw [UInt64.toNat_mod]
    exact ⟨State.blockRootAt_of_cell hback (hrings.blockRoots d hd hback.within),
      hrings.stateRoots d hd hback.within⟩
  have hbefore (hback : s.LooksBack spec slot) (hslot : slot < spec.genesisSlot) :
      s.blockRootAt spec slot = .ok .zero := by
    have hslotNat : slot.toNat < spec.genesisSlot.toNat := UInt64.lt_iff_toNat_lt.1 hslot
    have hearlier := UInt64.lt_iff_toNat_lt.1 hback.earlier
    have hwithin := hback.within
    refine State.blockRootAt_of_cell hback ((hrings.untouched _ fun d hd => ?_).trans ?_)
    · obtain ⟨hfrom, hto⟩ := hrings.slot_bounds hd
      have hfrom : spec.genesisSlot.toNat ≤ d.slot.toNat := hfrom
      exact State.cell_ne (by omega) (by omega)
    · exact List.getElem?_replicate_of_lt (Nat.mod_lt _ (by omega))
  refine ⟨⟨fun ⟨_, h⟩ => State.looksBack_of_blockRootAt h, fun hback => ?_⟩, hbefore,
    fun hback hfrom => hrings.exists_left hfrom hback.earlier, hroots, fun hback hfrom hnonzero => ?_⟩
  · by_cases hslot : slot < spec.genesisSlot
    · exact ⟨_, hbefore hback hslot⟩
    · obtain ⟨d, hd, heq⟩ := hrings.exists_left (UInt64.not_lt.1 hslot) hback.earlier
      exact ⟨_, (hroots hback d hd heq).1⟩
  · obtain ⟨d, hd, rfl⟩ := hrings.exists_left hfrom hback.earlier
    rw [(hroots hback d hd rfl).1, (hpassage.tipped hnonzero).left d hd]

-- Rings of three cells, and a genesis one slot after the first of all slots.
def shortRings : Spec := ⟨1, 3, 1, 1⟩

def shortOrigin : State := .genesis shortRings 4 .zero

-- The block that is produced on this genesis state for the next slot.
def shortBlock : Block :=
  match shortOrigin.produceBlock shortRings 2 .zero with
  | .ok b => b
  | .error _ => default

-- Putting on the block, and leaving its slot.
def shortRun : List Call := [.applyBlock shortBlock, .processSlots 3]

theorem evaluated_shortRun :
    (follow shortRings shortRun shortOrigin).toOption.map State.slot = some 3 ∧ shortBlock.slot ≤ 2 ∧
      ∀ d ∈ departures shortRings shortRun shortOrigin, d.root ≠ .zero := by
  decide +kernel

-- The state at slot 3 has nothing for the slot before genesis, and the block for its slot.
theorem remembers_of_run_short :
    ∃ s, follow shortRings shortRun shortOrigin = .ok s ∧
      s.LooksBack shortRings 0 ∧ s.LooksBack shortRings 2 ∧
      (∀ d ∈ departures shortRings shortRun shortOrigin, d.root ≠ .zero) ∧
      s.blockRootAt shortRings 0 = .ok .zero ∧ s.blockRootAt shortRings 2 = .ok shortBlock.root := by
  obtain ⟨hend, hblock, hnonzero⟩ := evaluated_shortRun
  cases hrun : follow shortRings shortRun shortOrigin with
  | error e =>
    rw [hrun] at hend
    cases hend
  | ok s =>
    rw [hrun] at hend
    have hslot : s.slot = 3 := Option.some.inj hend
    have hearly : s.LooksBack shortRings 0 := ⟨by rw [hslot]; decide, by rw [hslot]; decide, by decide⟩
    have hlate : s.LooksBack shortRings 2 := ⟨by rw [hslot]; decide, by rw [hslot]; decide, by decide⟩
    have hbefore := (remembers_of_run hrun 0).before hearly (by decide)
    have hlatest := (remembers_of_run hrun 2).latest hlate (by decide) hnonzero
    have hblocks : (blocks shortRun).filter (fun b => b.slot ≤ 2) = [shortBlock] :=
      List.filter_cons_of_pos (decide_eq_true hblock)
    rw [hblocks, ← List.nil_append [shortBlock], Passage.tip_concat] at hlatest
    exact ⟨s, rfl, hearly, hlate, hnonzero, hbefore, hlatest⟩

end Transition

end BeaconHistory
