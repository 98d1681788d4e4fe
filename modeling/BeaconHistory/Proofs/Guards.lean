import BeaconHistory.Proofs.Advance
import BeaconHistory.Proofs.ForkTree.Growing
import BeaconHistory.Span

/-!
# Guards — every step stays in its domain

A remainder by zero and a difference below zero are words like any other in the definitions.  Here what
has such a step is computed once more, without a value where the step leaves its domain.  Main statement:
with constants that can divide no transition of any state breaks off, those that fail leave the state as
it was, and the guards of the definitions keep each such step in its domain.
-/

namespace BeaconHistory

/-! ## 1. Words -/

namespace Guarded

/-- The remainder, if the divisor is not zero. -/
def remainder (a b : UInt64) : Option UInt64 := if b = 0 then none else some (a % b)

/-- The difference, if it is not below zero. -/
def difference (a b : UInt64) : Option UInt64 := if a < b then none else some (a - b)

theorem remainder_eq {a b : UInt64} (h : b ≠ 0) : remainder a b = some (a % b) := if_neg h

theorem difference_eq {a b : UInt64} (h : b ≤ a) : difference a b = some (a - b) :=
  if_neg (UInt64.not_lt.2 h)

end Guarded

/-! ## 2. Duties -/

namespace Duties

-- The validator drawn for `slot`, if there is one to draw.
def guardedDraw (randaoMix : Root) (validatorCount slot : UInt64) : Option UInt64 :=
  Guarded.remainder (Bytes.toWord (Root.commit (randaoMix.bytes ++ Bytes.ofWord slot)).bytes)
    validatorCount

def guardedOfState (spec : Spec) (s : State) : Option (Outcome Transition.Error Duties) :=
  if s.validatorCount = 0 then some (.refuse .noValidators)
  else match spec.epochOf s.slot with
    | .error e => some (.error e)
    | .ok epoch =>
      let start := spec.epochStart epoch
      ((slotsBetween start (start + spec.slotsPerEpoch)).mapM
        (guardedDraw s.randaoMix s.validatorCount)).map fun proposers => .ok ⟨epoch, start, proposers⟩

-- A state without validators is refused before the first draw.
theorem guardedOfState_eq (spec : Spec) (s : State) : guardedOfState spec s = some (ofState spec s) := by
  unfold guardedOfState ofState
  by_cases hcount : s.validatorCount = 0
  · rw [if_pos hcount]
    dsimp only
    rw [if_pos hcount]
    rfl
  · have hdraw : guardedDraw s.randaoMix s.validatorCount =
        fun slot => pure (draw s.randaoMix s.validatorCount slot) :=
      funext fun slot => Guarded.remainder_eq hcount
    rw [if_neg hcount]
    dsimp only
    rw [if_neg hcount]
    cases spec.epochOf s.slot with
    | error e => rfl
    | ok epoch =>
      dsimp only
      rw [hdraw, List.mapM_pure]
      rfl

end Duties

/-! ## 3. Slots left in place -/

namespace Transition

variable {spec : Spec} {s t : State}

/-- Leaves a count of slots in place: what is done stays done if a slot cannot be left. -/
def leaveInPlace (spec : Spec) : Nat → Transition Unit
  | 0 => pure ()
  | n + 1 => do
    become (State.leaveSlot spec)
    leaveInPlace spec n

/-- Looks at the rings once, and leaves the slots up to `target` in place. -/
def processSlotsInPlace (spec : Spec) (target : UInt64) : Transition Unit := do
  let s ← get
  if target ≤ s.slot then Operation.refuse (.slotNotAhead s.slot target)
  else if s.ringsFit spec then leaveInPlace spec (target.toNat - s.slot.toNat)
  else Operation.refuse (.historyLength spec.historyLength (min s.blockRoots.length s.stateRoots.length))

theorem leaveInPlace_of_ok {n : Nat} (h : s.leaveSlots spec n = .ok t) :
    leaveInPlace spec n s = .ok () t := by
  induction n generalizing s with
  | zero =>
    cases h
    rfl
  | succ n ih =>
    obtain ⟨next, hnext, h⟩ := Outcome.bind_eq_ok_iff.1 h
    show EStateM.bind (become (State.leaveSlot spec)) (fun _ => leaveInPlace spec n) s = _
    unfold EStateM.bind become
    rw [hnext]
    exact ih h

/-- Once the rings have been looked at, no slot fails halfway. -/
theorem processSlotsInPlace_eq (hspec : spec.validate = .ok ()) (target : UInt64) (s : State) :
    processSlotsInPlace spec target s = processSlots spec target s := by
  unfold processSlotsInPlace processSlots become State.advanced
  rw [Operation.get_bind]
  by_cases hle : target ≤ s.slot
  · rw [if_pos hle, if_pos hle]
    rfl
  · rw [if_neg hle, if_neg hle]
    by_cases hfit : s.ringsFit spec = true
    · obtain ⟨t, ht⟩ :=
        State.exists_leaveSlots (State.historyLength_ne_zero hspec) (target.toNat - s.slot.toNat) hfit
      rw [if_pos hfit, if_pos hfit, ht]
      exact leaveInPlace_of_ok ht
    · rw [if_neg hfit, if_neg hfit]
      rfl

end Transition

namespace State

variable {spec : Spec}

/-- Nothing that is done with a state leaves its domain, and what fails leaves the state as it was. -/
structure Safe (spec : Spec) (s : State) : Prop where
  processSlots : ∀ target : UInt64, (Transition.processSlots spec target).Steady s
  processHeader : ∀ b : Block, (Transition.processHeader spec b).Steady s
  applyBlock : ∀ b : Block, (Transition.applyBlock spec b).Steady s
  produceBlock : ∀ (slot : UInt64) (body : Root), (s.produceBlock spec slot body).Steady
  blockRootAt : ∀ slot : UInt64, (s.blockRootAt spec slot).Steady
  duties : (Duties.ofState spec s).Steady
  -- No remainder by zero is drawn.
  drawn : Duties.guardedOfState spec s = some (Duties.ofState spec s)
  inPlace : ∀ target : UInt64,
    Transition.processSlotsInPlace spec target s = Transition.processSlots spec target s
  slotsKept : ∀ (target : UInt64) (e : Failure Transition.Error) (t : State),
    Transition.processSlotsInPlace spec target s = .error e t → t = s
  headerKept : ∀ (b : Block) (e : Failure Transition.Error) (t : State),
    Transition.processHeader spec b s = .error e t → t = s

theorem steady_become {next : State → Outcome Transition.Error State} {s : State}
    (h : (next s).Steady) : (Transition.become next).Steady s := by
  intro fault t hbroke
  unfold Transition.become at hbroke
  cases hnext : next s with
  | ok u =>
    rw [hnext] at hbroke
    cases hbroke
  | error e =>
    rw [hnext] at hbroke
    cases hbroke
    exact h fault hnext

theorem eq_of_become {next : State → Outcome Transition.Error State} {s t : State}
    {e : Failure Transition.Error} (h : Transition.become next s = .error e t) : t = s := by
  unfold Transition.become at h
  cases hnext : next s with
  | ok u =>
    rw [hnext] at h
    cases h
  | error e =>
    rw [hnext] at h
    cases h
    rfl

theorem produceBlock_steady (hspec : spec.validate = .ok ()) (slot : UInt64) (body : Root) (s : State) :
    (s.produceBlock spec slot body).Steady := by
  refine (atSlot_steady hspec slot s).bind fun pre _ => ?_
  refine (expectedProposer_steady hspec slot pre).bind fun proposer _ => ?_
  exact (withHeader_steady hspec _ pre).bind fun post _ => Outcome.steady_ok _

theorem blockRootAt_steady (hspec : spec.validate = .ok ()) (slot : UInt64) (s : State) :
    (s.blockRootAt spec slot).Steady := by
  unfold blockRootAt
  split
  · exact Outcome.steady_refuse _
  · rw [ringIndex_eq_ok (historyLength_ne_zero hspec)]
    dsimp only [bind, Except.bind]
    split
    · exact Outcome.steady_ok _
    · exact Outcome.steady_refuse _

/-- With constants that can divide every state is safe, whatever its slot, rings, header and validators. -/
theorem safe (hspec : spec.validate = .ok ()) (s : State) : s.Safe spec := by
  have happly (b : Block) : (Transition.applyBlock spec b).Steady s := by
    intro fault t hbroke
    refine applyBlock_steady hspec b s fault ?_
    unfold Operation.reach EStateM.run
    rw [hbroke]
  exact {
    processSlots := fun target => steady_become (advanced_steady hspec target s)
    processHeader := fun b => steady_become (withHeader_steady hspec b s)
    applyBlock := happly
    produceBlock := fun slot body => produceBlock_steady hspec slot body s
    blockRootAt := fun slot => blockRootAt_steady hspec slot s
    duties := duties_steady hspec s
    drawn := Duties.guardedOfState_eq spec s
    inPlace := fun target => Transition.processSlotsInPlace_eq hspec target s
    slotsKept := fun target e t h => by
      rw [Transition.processSlotsInPlace_eq hspec] at h
      exact eq_of_become h
    headerKept := fun b e t h => eq_of_become h }

end State

/-! ## 4. Growth, branches and ranges -/

namespace ForkTree

variable {t : ForkTree}

/-- Adds block `b` on top of the parent at `parent`, if there is a slot before that of the block. -/
def guardedInsertOn (b : Block) (parent : Position) (t : ForkTree) :
    Option (EStateM.Result (Failure Frontier.Error) ForkTree Snapshot) :=
  (Guarded.difference b.slot 1).map fun before =>
    (show Growth Snapshot from do
      let tip ← extendTo parent before
      let pre ← extendTo tip b.slot
      let post ← Operation.ofOutcome (applied b pre)
      modify (·.insert post tip)
      return post) t

def guardedInsertBlock (b : Block) (t : ForkTree) :
    Option (EStateM.Result (Failure Frontier.Error) ForkTree Snapshot) :=
  if b.slot ≤ t.anchor.slot then some (.error (.refused (.notAfterAnchor b.slot t.anchor.slot)) t)
  else match t.block? b.root with
    | some entry => some (.ok entry t)
    | none => match t.blocks[b.parentRoot]? with
      | none => some (.error (.refused (.unknownParent b.slot b.parentRoot)) t)
      | some parent =>
        if b.slot ≤ parent.slot then
          some (.error (.refused (.slotNotAfterParent b.slot parent.slot)) t)
        else guardedInsertOn b parent t

-- A block is only added after its parent, so its slot is not the first one.
theorem guardedInsertBlock_eq (b : Block) (t : ForkTree) :
    guardedInsertBlock b t = some (insertBlock b t) := by
  rw [insertBlock_eq]
  unfold guardedInsertBlock
  by_cases hafter : b.slot ≤ t.anchor.slot
  · rw [if_pos hafter, if_pos hafter]
  rw [if_neg hafter, if_neg hafter]
  cases t.block? b.root with
  | some entry => rfl
  | none =>
    cases t.blocks[b.parentRoot]? with
    | none => rfl
    | some parent =>
      dsimp only
      by_cases hslot : b.slot ≤ parent.slot
      · rw [if_pos hslot, if_pos hslot]
      · have hone : 1 ≤ b.slot := by
          rw [UInt64.le_iff_toNat_le] at hslot ⊢
          rw [UInt64.toNat_one]
          omega
        rw [if_neg hslot, if_neg hslot]
        unfold guardedInsertOn
        rw [Guarded.difference_eq hone]
        rfl

/-- The snapshots after the anchor on the branch of the head, if the head is not before the anchor. -/
def guardedBranch (t : ForkTree) : Option (List Snapshot) :=
  (Guarded.difference t.head.slot t.anchor.slot).map fun count => t.backFrom count.toNat t.head []

theorem Sound.anchor_slot_le_head (ht : t.Sound) : t.anchor.slot ≤ t.head.slot := by
  by_cases hhead : t.head = t.anchor
  · rw [hhead]
    exact UInt64.le_refl _
  · obtain ⟨node, hnode⟩ := (Lookup.mem_iff_exists _ _).1 ht.head_mem
    exact UInt64.le_of_lt (ht.linked _ node hnode hhead).1

theorem Sound.guardedBranch_eq (ht : t.Sound) : t.guardedBranch = some t.canonicalBranch := by
  have hle := ht.anchor_slot_le_head
  unfold guardedBranch canonicalBranch
  rw [Guarded.difference_eq hle, Option.map_some, UInt64.toNat_sub_of_le _ _ hle]

end ForkTree

namespace Span

/-- The entry of a slot, if the slot is not looked for before the start of a range. -/
def guardedEntry (files : Files) (slot : UInt64) : Span → Option (Except Query.Error Entry)
  | entries start snapshots =>
    if (entries start snapshots).contains slot then
      (Guarded.difference slot start).map fun offset => match snapshots[offset.toNat]? with
        | some snapshot => .ok (.node snapshot)
        | none => .error (.unknownSlot slot)
    else some (.error (.outOfRange slot start (entries start snapshots).stop))
  | filed start stop =>
    if (filed start stop).contains slot then some (files.entryAt slot)
    else some (.error (.outOfRange slot start stop))
  | joined first second =>
    if (joined first second).contains slot then
      if slot < first.stop then first.guardedEntry files slot else second.guardedEntry files slot
    else some (.error (.outOfRange slot first.start second.stop))

theorem guardedEntry_eq (files : Files) (slot : UInt64) (s : Span) :
    s.guardedEntry files slot = some (s.entry files slot) := by
  induction s with
  | entries start snapshots =>
    unfold guardedEntry entry
    split
    · next hin =>
      unfold contains at hin
      rw [Bool.and_eq_true, decide_eq_true_iff] at hin
      have hle : start ≤ slot := hin.1
      rw [Guarded.difference_eq hle]
      rfl
    · rfl
  | filed start stop =>
    unfold guardedEntry entry
    split <;> rfl
  | joined first second ihFirst ihSecond =>
    unfold guardedEntry entry
    rw [ihFirst, ihSecond]
    split
    · split <;> rfl
    · rfl

end Span

end BeaconHistory
