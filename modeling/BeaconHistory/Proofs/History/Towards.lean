import BeaconHistory.Proofs.History.Grounded
import BeaconHistory.Proofs.Production

/-!
# History.Towards — advancing is plain slot processing

To answer for a slot that is not held, a history starts at the closest entry of the block, in memory or on
file, and leaves one slot after the other, each of them after a look at the context.  Main statement: where
it starts makes no difference, the entry or the error is what plain slot processing gives on the state of
the block's entry; and an interruption, whenever it strikes, is reported and never cuts the way short.
-/

namespace BeaconHistory

/-! ## 1. Slots left one by one -/

theorem Context.check_steady (ctx : Context) : ctx.check.Steady := by
  unfold check
  split
  · exact Outcome.steady_refuse _
  · split
    · exact Outcome.steady_refuse _
    · exact Outcome.steady_ok _

namespace Query

variable {α : Type} {spec : Spec} {ctx : Context} {s : State} {slot : UInt64} {n : Nat}

/-- A context interrupted the computation. -/
def Interrupted (o : Outcome Error α) : Prop := ∃ e, o = .error (.refused e) ∧ e.isInterrupted = true

theorem interrupted_of_check {e : Failure Error} (h : ctx.check = .error e) :
    Interrupted (.error e : Outcome Error α) := by
  cases e with
  | refused e => exact ⟨e, rfl, Context.isInterrupted_of_check h⟩
  | broke fault => exact absurd h (ctx.check_steady fault)

theorem Interrupted.bind {β : Type} {o : Outcome Error α} {f : α → Outcome Error β} (h : Interrupted o) :
    Interrupted (o >>= f) := by
  obtain ⟨e, rfl, he⟩ := h
  exact ⟨e, rfl, he⟩

/-- Under a context that lets it go on, leaving slots one by one is leaving them at once. -/
theorem leaveSlots_eq (hctx : ctx.check = .ok ()) (hslot : slot.toNat = s.slot.toNat + n) :
    leaveSlots ctx spec n s = (s.atSlot spec slot).mapReason .transition := by
  induction n generalizing s with
  | zero =>
    have hstay : slot = s.slot := UInt64.toNat_inj.1 hslot
    rw [hstay, State.atSlot, if_neg (UInt64.lt_irrefl _)]
    rfl
  | succ n ih =>
    have hword := slot.toNat_lt
    have hnext := Slots.toNat_add_one s.slot (by omega)
    have hahead : s.slot + 1 > s.slot := UInt64.lt_iff_toNat_lt.2 (by omega)
    have hone : s.atSlot spec (s.slot + 1) = s.advanced spec (s.slot + 1) := if_pos hahead
    rw [State.atSlot_trans (UInt64.le_of_lt hahead) (UInt64.le_iff_toNat_le.2 (by omega)), hone]
    unfold leaveSlots
    rw [hctx]
    cases hadvanced : s.advanced spec (s.slot + 1) with
    | error e => rfl
    | ok t =>
      have htslot := State.slot_of_advanced hadvanced
      exact ih (by rw [htslot]; omega)

theorem leaveSlots_interrupted (hctx : ctx.check ≠ .ok ()) (spec : Spec) (n : Nat) (s : State) :
    Interrupted (leaveSlots ctx spec (n + 1) s) := by
  unfold leaveSlots
  cases hcheck : ctx.check with
  | ok _ => exact absurd hcheck hctx
  | error e => exact (interrupted_of_check hcheck).bind

/-! ## 2. From the closest entry on -/

variable {files : Files} {start : Entry}

-- An entry at the slot is given as it is, whatever the context.
theorem advance_of_slot (ctx : Context) (spec : Spec) (files : Files) (hslot : start.slot = slot) :
    advance ctx spec files start slot = .ok ⟨start, none⟩ :=
  if_pos (UInt64.le_of_eq hslot.symm)

theorem advance_of_reads (hctx : ctx.check = .ok ()) (hreads : start.Reads files s)
    (hsummary : start.summary = .ofState s) (hslot : start.slot < slot) :
    advance ctx spec files start slot = (do
      let t ← (s.advanced spec slot).mapReason .transition
      return ⟨.advanced (.ofState spec t), some (slot.toNat - s.slot.toNat)⟩) := by
  have hstate : (start.state files ctx).outcome .empty = .ok s := by
    rcases (hreads.state ctx .empty (Memo.of_empty _ _)).1 with heq | ⟨e, hcheck, -⟩
    · exact heq
    · rw [hctx] at hcheck
      cases hcheck
  have hahead : s.slot < slot := by
    rw [show s.slot = start.slot from (congrArg Summary.slot hsummary).symm]
    exact hslot
  have hcount : slot.toNat = s.slot.toNat + (slot.toNat - s.slot.toNat) := by
    have := UInt64.lt_iff_toNat_lt.1 hahead
    omega
  have hat : s.atSlot spec slot = s.advanced spec slot := if_pos hahead
  unfold advance
  rw [if_neg (UInt64.not_le.2 hslot), hstate]
  show (do
    let t ← leaveSlots ctx spec (slot.toNat - s.slot.toNat) s
    return _) = _
  rw [leaveSlots_eq hctx hcount, hat]

theorem advance_interrupted (hctx : ctx.check ≠ .ok ()) (hreads : start.Reads files s)
    (hsummary : start.summary = .ofState s) (hslot : start.slot < slot) :
    Interrupted (advance ctx spec files start slot) := by
  have hahead : s.slot.toNat < slot.toNat := by
    rw [show s.slot = start.slot from (congrArg Summary.slot hsummary).symm]
    exact UInt64.lt_iff_toNat_lt.1 hslot
  unfold advance
  rw [if_neg (UInt64.not_le.2 hslot)]
  rcases (hreads.state ctx .empty (Memo.of_empty _ _)).1 with heq | ⟨e, hcheck, heq⟩
  · rw [heq]
    obtain ⟨n, hn⟩ := Nat.exists_eq_succ_of_ne_zero (Nat.sub_ne_zero_of_lt hahead)
    show Interrupted (leaveSlots ctx spec (slot.toNat - s.slot.toNat) s >>= _)
    rw [hn]
    exact (leaveSlots_interrupted hctx spec n s).bind
  · rw [heq]
    exact interrupted_of_check hcheck

variable {γ : Type} [Chain γ] {c : γ} {root : Root} {block : Entry}

theorem towards_of_before (ctx : Context) (hblock : Chain.byBlockRoot c root = .ok block)
    (hslot : slot < block.slot) :
    towards c ctx root slot = .error (.refused (.targetBeforeBlock root block.slot slot)) := by
  unfold towards
  rw [hblock]
  exact if_pos hslot

theorem towards_of_closest (ctx : Context) (hblock : Chain.byBlockRoot c root = .ok block)
    (hslot : block.slot ≤ slot) (hclosest : Chain.closest c root slot = .ok start) :
    towards c ctx root slot = advance ctx (Chain.spec c) (Chain.files c) start slot := by
  unfold towards
  rw [hblock, hclosest]
  exact if_neg (UInt64.not_lt.2 hslot)

/-! ## 3. Interruptions on the way -/

-- A context may be cancelled or expire between two checks: `clock` tells it for each check by its number.
def leaveSlotsOn (clock : Nat → Context) (spec : Spec) : Nat → State → Outcome Error State
  | 0, s => .ok s
  | n + 1, s => do
    (clock 0).check
    let s ← (s.advanced spec (s.slot + 1)).mapReason .transition
    leaveSlotsOn (fun k => clock (k + 1)) spec n s

def advanceOn (clock : Nat → Context) (spec : Spec) (files : Files) (start : Entry) (slot : UInt64) :
    Outcome Error Arrival :=
  if slot ≤ start.slot then .ok ⟨start, none⟩
  else do
    let state ← (start.state files (clock 0)).outcome .empty
    let steps := slot.toNat - state.slot.toNat
    let state ← leaveSlotsOn (fun k => clock (k + 1)) spec steps state
    return ⟨.advanced (.ofState spec state), some steps⟩

/-- Advancing under a context that changes while it goes on. -/
def towardsOn (c : γ) (clock : Nat → Context) (root : Root) (slot : UInt64) : Outcome Error Arrival := do
  let block ← Outcome.ofExcept (Chain.byBlockRoot c root)
  if slot < block.slot then .refuse (.targetBeforeBlock root block.slot slot)
  let closest ← Outcome.ofExcept (Chain.closest c root slot)
  advanceOn clock (Chain.spec c) (Chain.files c) closest slot

theorem leaveSlotsOn_const (ctx : Context) (spec : Spec) (n : Nat) (s : State) :
    leaveSlotsOn (fun _ => ctx) spec n s = leaveSlots ctx spec n s := by
  induction n generalizing s with
  | zero => rfl
  | succ n ih =>
    unfold leaveSlotsOn leaveSlots
    simp only [ih]

theorem towardsOn_const (c : γ) (ctx : Context) (root : Root) (slot : UInt64) :
    towardsOn c (fun _ => ctx) root slot = towards c ctx root slot := by
  unfold towardsOn towards advanceOn advance
  simp only [leaveSlotsOn_const]

theorem leaveSlotsOn_eq_or (clock : Nat → Context) (spec : Spec) (n : Nat) (s : State) :
    leaveSlotsOn clock spec n s = leaveSlots .unbounded spec n s ∨
      Interrupted (leaveSlotsOn clock spec n s) := by
  induction n generalizing s clock with
  | zero => exact Or.inl rfl
  | succ n ih =>
    unfold leaveSlotsOn leaveSlots
    rw [Context.check_unbounded]
    cases hcheck : (clock 0).check with
    | error e => exact Or.inr (interrupted_of_check hcheck).bind
    | ok _ =>
      cases s.advanced spec (s.slot + 1) with
      | error e => exact Or.inl rfl
      | ok t => exact ih (fun k => clock (k + 1)) t

theorem outcome_state_or (files : Files) (ctx : Context) (e : Entry) :
    (e.state files ctx).outcome .empty = (e.state files .unbounded).outcome .empty ∨
      Interrupted ((e.state files ctx).outcome .empty) := by
  cases e with
  | node x => exact Or.inl rfl
  | advanced x => exact Or.inl rfl
  | filed summary spec =>
    unfold Operation.outcome EStateM.run Entry.state Memo.empty
    dsimp only
    rw [Context.check_unbounded]
    cases hcheck : ctx.check with
    | error e => exact Or.inr (interrupted_of_check hcheck)
    | ok _ => exact Or.inl rfl

/-- A context that changes on the way changes nothing, unless it interrupts. -/
theorem towardsOn_eq_or (c : γ) (clock : Nat → Context) (root : Root) (slot : UInt64) :
    towardsOn c clock root slot = towards c .unbounded root slot ∨
      Interrupted (towardsOn c clock root slot) := by
  have hadvance (start : Entry) : advanceOn clock (Chain.spec c) (Chain.files c) start slot =
      advance .unbounded (Chain.spec c) (Chain.files c) start slot ∨
        Interrupted (advanceOn clock (Chain.spec c) (Chain.files c) start slot) := by
    unfold advanceOn advance
    by_cases hslot : slot ≤ start.slot
    · rw [if_pos hslot, if_pos hslot]
      exact Or.inl rfl
    · rw [if_neg hslot, if_neg hslot]
      rcases outcome_state_or (Chain.files c) (clock 0) start with heq | hstopped
      · rw [heq]
        cases (start.state (Chain.files c) .unbounded).outcome .empty with
        | error e => exact Or.inl rfl
        | ok s =>
          rcases leaveSlotsOn_eq_or (fun k => clock (k + 1)) (Chain.spec c) (slot.toNat - s.slot.toNat) s
            with heq | hstopped
          · refine Or.inl ?_
            show leaveSlotsOn _ _ _ s >>= _ = leaveSlots _ _ _ s >>= _
            rw [heq]
          · exact Or.inr hstopped.bind
      · exact Or.inr hstopped.bind
  unfold towardsOn towards
  cases Chain.byBlockRoot c root with
  | error e => exact Or.inl rfl
  | ok block =>
    by_cases hslot : slot < block.slot
    · exact Or.inl ((if_pos hslot).trans (if_pos hslot).symm)
    · cases Chain.closest c root slot with
      | error e => exact Or.inl ((if_neg hslot).trans (if_neg hslot).symm)
      | ok start =>
        rcases hadvance start with heq | ⟨e, heq, he⟩
        · exact Or.inl ((if_neg hslot).trans (heq.trans (if_neg hslot).symm))
        · exact Or.inr ⟨e, (if_neg hslot).trans heq, he⟩

end Query

namespace History

variable {τ : Type} [Archive τ] {tables : τ → Archive.Tables} {taken : Block → Prop} {first : Summary}
  {spec : Spec} {origin s : State} {K : List (List UInt8)} {h : History τ} {root : Root} {e : Entry}

/-! ## 4. Histories in use -/

/-- Advancing block `root`, whose entry `e` is read of the state `s`, is processing the slots of `s`. -/
structure Advances (spec : Spec) (h : History τ) (root : Root) (e : Entry) (s : State) : Prop where
  before : ∀ ctx slot, slot < e.slot →
    Query.towards h ctx root slot = .error (.refused (.targetBeforeBlock root e.slot slot))
  -- The slot of the block itself takes no work.
  block : ∀ ctx, Query.towards h ctx root e.slot = .ok ⟨e, none⟩
  processed : ∀ ctx slot, ctx.check = .ok () → e.slot < slot →
    match (Transition.processSlots spec slot).reach s with
    | .ok t => ∃ a, Query.towards h ctx root slot = .ok a ∧ a.entry.position = ⟨slot, root⟩ ∧
        a.entry.summary = .ofState t ∧ a.entry.Reads (Chain.files h) t
    | .error (.refused reason) =>
      Query.towards h ctx root slot = .error (.refused (.transition reason))
    | .error (.broke _) => False
  -- An entry that is held is given whatever the context; an interrupted context gives nothing else.
  held : ∀ ctx slot x, e.slot ≤ slot → Chain.byPosition h ⟨slot, root⟩ = .ok x →
    Query.towards h ctx root slot = .ok ⟨x, none⟩
  interrupted : ∀ ctx slot, ctx.check ≠ .ok () → e.slot ≤ slot →
    (∀ x, Chain.byPosition h ⟨slot, root⟩ ≠ .ok x) → Query.Interrupted (Query.towards h ctx root slot)
  -- A context that stays as it is on the way is the one that is given.
  steadily : ∀ ctx slot, Query.towardsOn h (fun _ => ctx) root slot = Query.towards h ctx root slot
  -- A context that is cancelled or expires on the way may interrupt, and changes nothing else.
  midway : ∀ clock slot, Query.towardsOn h clock root slot = Query.towards h .unbounded root slot ∨
    Query.Interrupted (Query.towardsOn h clock root slot)
  reaches : ∀ ctx slot a, Query.towards h ctx root slot = .ok a → a.entry.slot = slot

/-- The closest entry of a block up to a slot holds the state of the block advanced to its own slot. -/
theorem Grounded.exists_closest (hmemory : Archive.InMemory tables) (hK : CollisionFree K)
    (hs : h.Sound taken first) (hd : Distinct taken first.blockRoot)
    (horigin : first.blockRoot = origin.latestBlockRoot) (hg : h.Grounded tables taken spec origin K)
    (he : Earliest h.Holds Entry.summary root e) (hgenuine : Genuine taken spec origin K s)
    (hsummary : e.summary = .ofState s) {slot : UInt64} (hslot : e.slot ≤ slot) :
    ∃ c u, Chain.closest h root slot = .ok c ∧ Latest h.Holds Entry.summary root slot c ∧
      c.summary = .ofState u ∧ c.Reads (Chain.files h) u ∧ s.atSlot spec c.slot = .ok u := by
  obtain ⟨c, hclosest⟩ := hs.exists_closest hd he.held he.root hslot
  have hlatest := (hs.closest_eq_ok_iff hd).1 hclosest
  obtain ⟨u, hgenuine', hsummary', hreads⟩ := hg.exists_reads hmemory hK hs hlatest.held
  have hle : e.slot ≤ c.slot := he.earliest c hlatest.held hlatest.root
  have hcslot : c.slot = u.slot := congrArg Summary.slot hsummary'
  have hroot : s.latestBlockRoot = u.latestBlockRoot := by
    have heroot := he.root
    have hcroot := hlatest.root
    rw [hsummary] at heroot
    rw [hsummary'] at hcroot
    exact heroot.trans hcroot.symm
  have hslots : s.slot ≤ u.slot := by
    rw [show e.slot = s.slot from congrArg Summary.slot hsummary, hcslot] at hle
    exact hle
  refine ⟨c, u, hclosest, hlatest, hsummary', hreads, ?_⟩
  rw [hcslot]
  rw [horigin] at hd
  exact hgenuine.atSlot_eq hd hgenuine' hroot hslots

section

variable (hmemory : Archive.InMemory tables) (hK : CollisionFree K) (hs : h.Sound taken first)
  (hd : Distinct taken first.blockRoot) (horigin : first.blockRoot = origin.latestBlockRoot)
  (hg : h.Grounded tables taken spec origin K) (he : Earliest h.Holds Entry.summary root e)
  (hgenuine : Genuine taken spec origin K s) (hsummary : e.summary = .ofState s) {slot : UInt64}

include hmemory hK hs hd horigin hg he hgenuine hsummary

/-- What advancing amounts to: the closest entry is at the slot, or slots are left from its state. -/
theorem Grounded.towards_cases (hslot : e.slot ≤ slot) :
    (∃ x u, h.Holds x ∧ x.position = ⟨slot, root⟩ ∧ x.summary = .ofState u ∧
        x.Reads (Chain.files h) u ∧ s.atSlot spec slot = .ok u ∧
        ∀ ctx, Query.towards h ctx root slot = .ok ⟨x, none⟩) ∨
      (∀ x, h.Holds x → x.position ≠ ⟨slot, root⟩) ∧
        (∀ ctx, ctx.check ≠ .ok () → Query.Interrupted (Query.towards h ctx root slot)) ∧
        ∃ steps, ∀ ctx, ctx.check = .ok () → Query.towards h ctx root slot = (do
          let t ← (s.atSlot spec slot).mapReason .transition
          return ⟨.advanced (.ofState spec t), some steps⟩) := by
  have hblock := (hs.byBlockRoot_eq_ok_iff hd).2 he
  obtain ⟨c, u, hclosest, hlatest, hcsummary, hreads, hreach⟩ :=
    hg.exists_closest hmemory hK hs hd horigin he hgenuine hsummary hslot
  have htowards (ctx : Context) : Query.towards h ctx root slot =
      Query.advance ctx spec (Chain.files h) c slot := by
    rw [Query.towards_of_closest ctx hblock hslot hclosest]
    exact congrArg (Query.advance ctx · (Chain.files h) c slot) hg.constants
  have hle : c.slot ≤ slot := hlatest.slot_le
  by_cases hthere : c.slot = slot
  · refine Or.inl ⟨c, u, hlatest.held, ?_, hcsummary, hreads, hthere ▸ hreach, fun ctx => ?_⟩
    · rw [Position.mk.injEq]
      exact ⟨hthere, hlatest.root⟩
    · rw [htowards, Query.advance_of_slot ctx spec _ hthere]
  · have hlt : c.slot < slot := UInt64.lt_of_le_of_ne hle hthere
    refine Or.inr ⟨fun x hx hposition => ?_, fun ctx hctx => ?_, slot.toNat - u.slot.toNat, fun ctx hctx => ?_⟩
    · have hxslot : x.summary.slot = slot := congrArg Position.slot hposition
      have hlate := hlatest.latest x hx (congrArg Position.root hposition) (UInt64.le_of_eq hxslot)
      rw [hxslot] at hlate
      exact UInt64.not_le.2 hlt hlate
    · rw [htowards]
      exact Query.advance_interrupted hctx hreads hcsummary hlt
    · have hcslot : c.slot = u.slot := congrArg Summary.slot hcsummary
      have hslots : s.slot ≤ c.slot := by
        rw [← show e.slot = s.slot from congrArg Summary.slot hsummary]
        exact he.earliest c hlatest.held hlatest.root
      have hahead : u.atSlot spec slot = u.advanced spec slot := if_pos (hcslot ▸ hlt)
      rw [htowards, Query.advance_of_reads hctx hreads hcsummary hlt, State.atSlot_trans hslots hle, hreach,
        ← hahead]
      rfl

/-- The block's entry, advanced over empty slots, is that of plain slot processing. -/
theorem Grounded.advances (hspec : spec.validate = .ok ()) : h.Advances spec root e s := by
  have heslot : e.slot = s.slot := congrArg Summary.slot hsummary
  have hblock := (hs.byBlockRoot_eq_ok_iff hd).2 he
  have hcases {slot : UInt64} (hslot : e.slot ≤ slot) :=
    hg.towards_cases hmemory hK hs hd horigin he hgenuine hsummary hslot
  have hheld : ∀ ctx slot x, e.slot ≤ slot → Chain.byPosition h ⟨slot, root⟩ = .ok x →
      Query.towards h ctx root slot = .ok ⟨x, none⟩ := by
    intro ctx slot x hslot hx
    obtain ⟨hx, hposition⟩ := hs.byPosition_eq_ok_iff.1 hx
    rcases hcases hslot with ⟨c, u, hc, hcposition, -, -, -, htowards⟩ | ⟨hnone, -⟩
    · rw [htowards, hs.holds_unique hc hx (hcposition.trans hposition.symm)]
    · exact absurd hposition (hnone x hx)
  refine ⟨fun ctx slot hslot => Query.towards_of_before ctx hblock hslot, fun ctx => ?_,
    fun ctx slot hctx hslot => ?_, hheld, fun ctx slot hctx hslot hnone => ?_,
    fun ctx slot => Query.towardsOn_const h ctx root slot,
    fun clock slot => Query.towardsOn_eq_or h clock root slot, fun ctx slot a ha => ?_⟩
  · refine hheld ctx e.slot e (UInt64.le_refl _) (hs.byPosition_eq_ok_iff.2 ⟨he.held, ?_⟩)
    rw [← he.root]
    rfl
  · have hahead : s.atSlot spec slot = s.advanced spec slot := if_pos (heslot ▸ hslot)
    rw [Transition.reach_processSlots]
    rcases hcases (UInt64.le_of_lt hslot) with
      ⟨x, u, -, hposition, hxsummary, hreads, hreach, htowards⟩ | ⟨-, -, steps, htowards⟩
    · rw [← hahead, hreach]
      exact ⟨_, htowards ctx, hposition, hxsummary, hreads⟩
    · have htowards := htowards ctx hctx
      rw [hahead] at htowards
      cases hadvanced : s.advanced spec slot with
      | ok t =>
        rw [hadvanced] at htowards
        refine ⟨_, htowards, ?_, rfl, Entry.reads_advanced _ _⟩
        have hroot : s.latestBlockRoot = root := by
          rw [← he.root, hsummary]
          rfl
        show Summary.position (.ofState t) = _
        rw [Summary.position, Summary.slot_ofState, Summary.blockRoot_ofState,
          State.slot_of_advanced hadvanced, ((hgenuine.sealable hK).advanced hadvanced).2, hroot]
      | error failure =>
        rw [hadvanced] at htowards
        cases failure with
        | refused reason => exact htowards
        | broke fault => exact State.advanced_steady hspec slot s fault hadvanced
  · rcases hcases hslot with ⟨c, u, hc, hposition, -⟩ | ⟨-, hinterrupted, -⟩
    · exact absurd (hs.byPosition_eq_ok_iff.2 ⟨hc, hposition⟩) (hnone c)
    · exact hinterrupted ctx hctx
  · by_cases hslot : slot < e.slot
    · rw [Query.towards_of_before ctx hblock hslot] at ha
      cases ha
    have hslot := UInt64.not_lt.1 hslot
    rcases hcases hslot with ⟨x, u, -, hposition, -, -, -, htowards⟩ | ⟨-, hinterrupted, steps, htowards⟩
    · rw [htowards] at ha
      cases ha
      exact congrArg Position.slot hposition
    · by_cases hctx : ctx.check = .ok ()
      · rw [htowards ctx hctx] at ha
        obtain ⟨t, ht, ha⟩ := Outcome.bind_eq_ok_iff.1 ha
        cases ha
        exact State.slot_of_atSlot (heslot ▸ hslot) (Outcome.mapReason_eq_ok_iff.1 ht)
      · obtain ⟨_, heq, -⟩ := hinterrupted ctx hctx
        rw [heq] at ha
        cases ha

end

/-- In any run of calls on a history that files its states in memory: the entry of a known block is read of
one state, and advancing the block gives what processing the slots of that state gives, wherever the entries
in between are held, if they are; only an interruption can come in between, and then it is reported. -/
theorem towards_of_run {anchor : Snapshot} {specs : Spec → Prop} (hanchor : anchor.state.Reached specs)
    {h : History Archive.Tables} (hstart : start anchor spec Archive.Tables.empty = .ok h)
    (calls : List Call) (hK : CollisionFree (anchor.state.hashed ++ hashed calls h)) {root : Root} {e : Entry}
    (he : Chain.byBlockRoot (play calls h) root = .ok e) :
    ∃ s, e.summary = .ofState s ∧ e.Reads (Chain.files (play calls h)) s ∧
      (play calls h).Advances spec root e s := by
  have hmemory := Archive.inMemory_tables
  have hs := sound_of_start hmemory.steady hanchor hstart calls hK.right
  have hd := distinct_of_start hanchor hstart calls hK.right
  have hg := grounded_of_start hmemory hanchor rfl hstart calls hK
  have hearliest := (hs.byBlockRoot_eq_ok_iff hd).1 he
  obtain ⟨s, hgenuine, hsummary, hreads⟩ := hg.exists_reads hmemory hK hs hearliest.held
  have horigin : anchor.summary.blockRoot = anchor.state.latestBlockRoot := by
    rw [anchor.summary_eq]
    rfl
  exact ⟨s, hsummary, hreads, hg.advances hmemory hK hs hd horigin hearliest hgenuine hsummary
    (hg.constants ▸ hs.spec)⟩

theorem towards_of_run_tiny :
    CollisionFree (Frontier.tinyAnchor.state.hashed ++ hashed tinyRun tinyHistory) ∧
      ∃ e s, Chain.byBlockRoot (play tinyRun tinyHistory) tinyBlock.root = .ok e ∧
        (play tinyRun tinyHistory).Advances Frontier.tinySpec tinyBlock.root e s := by
  have hK : CollisionFree (Frontier.tinyAnchor.state.hashed ++ hashed tinyRun tinyHistory) :=
    collisionFree_tiny.mono fun x hx => (List.mem_append.1 hx).elim (mem_hashed_of_start start_tiny _ _ x) id
  obtain ⟨-, -, -, -, -, -, hserved, -⟩ := evaluated_tiny
  obtain ⟨e, hanswer, -⟩ := Entry.exists_of_toOption hserved
  obtain ⟨s, -, -, hadvances⟩ := towards_of_run Frontier.reached_tiny start_tiny tinyRun hK hanswer
  exact ⟨hK, e, s, hanswer, hadvances⟩

end History

end BeaconHistory
