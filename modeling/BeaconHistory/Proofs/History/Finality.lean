import BeaconHistory.Proofs.History.Run

/-!
# History.Finality — finality is permanent

A finalization succeeds because its target precedes the anchor and agrees with the records, because it
is the anchor, or because all entries up to it were recorded.  Main statement: on each of these grounds
the target is a record from then on, and the records of a run never change nor disagree.
-/

namespace BeaconHistory.History

variable {τ : Type} {h : History τ} {taken : Block → Prop} {first : Summary}

/-! ## 1. Records are served -/

theorem bySlot_of_record [Archive τ] (hopen : h.frontier.poisoned = false)
    (hledger : h.ledger.poisoned = false) {s : Summary} (hrecord : h.ledger.record? s.slot = some s)
    (hslot : s.slot ≤ h.frontier.tree.anchor.slot) :
    Chain.bySlot h s.slot = .ok (.filed s h.ledger.spec) := by
  -- The frontier serves slots after its anchor only, so it has no answer and the ledger is asked.
  have hhot : Chain.bySlot h.frontier s.slot = .error (.unknownSlot s.slot) := by
    rw [Frontier.bySlot_of_open hopen]
    unfold ForkTree.canonical?
    rw [if_pos (Or.inl hslot)]
    rfl
  have hcold : Chain.bySlot h.ledger s.slot = .ok (.filed s h.ledger.spec) := by
    show h.ledger.bySlot s.slot = _
    rw [Ledger.bySlot_of_open hledger, hrecord]
    rfl
  show h.lookup (fun c => Chain.bySlot c s.slot) = _
  unfold lookup
  dsimp only
  rw [hhot, hcold]

theorem Sound.bySlot_of_recorded [Archive τ] (hs : h.Sound taken first) {s : Summary}
    (hmem : s ∈ h.ledger.records.toList) :
    Chain.bySlot h s.slot = .ok (.filed s h.ledger.spec) := by
  obtain ⟨last, hlog, hlast⟩ := hs.exists_last
  have hanchor : last.slot = h.frontier.tree.anchor.slot := congrArg Position.slot hlast
  have hle := hlog.slot_le_last hmem
  rw [hanchor, ← UInt64.le_iff_toNat_le] at hle
  have hrecord := (Ledger.record?_eq_some_iff hs.ledger.start hlog).2 ⟨hmem, rfl⟩
  exact bySlot_of_record hs.opened hs.ledger.opened hrecord hle

theorem Sound.anchor_recorded (hs : h.Sound taken first) :
    ∃ s ∈ h.ledger.records.toList, s.position = h.frontier.tree.anchor := by
  obtain ⟨last, hlog, hlast⟩ := hs.exists_last
  exact ⟨last, hlog.last_mem, hlast⟩

-- The ledger agrees with the position that it has on record.
theorem position_of_agrees (hopen : h.frontier.poisoned = false) (hledger : h.ledger.poisoned = false)
    {target : Position} (hslot : target.slot < h.frontier.tree.anchor.slot)
    (hagrees : h.agrees target = .ok ()) {s : Summary}
    (hrecord : h.ledger.record? target.slot = some s) : s.position = target := by
  rw [agrees_of_lt hopen hledger hslot, hrecord] at hagrees
  by_contra hne
  dsimp only at hagrees
  rw [if_neg hne] at hagrees
  cases hagrees

theorem Sound.recorded_of_agrees (hs : h.Sound taken first) {target : Position}
    (hstart : h.ledger.start ≤ target.slot) (hslot : target.slot < h.frontier.tree.anchor.slot)
    (hagrees : h.agrees target = .ok ()) : ∃ s ∈ h.ledger.records.toList, s.position = target := by
  obtain ⟨last, hlog, hlast⟩ := hs.exists_last
  have hanchor : last.slot = h.frontier.tree.anchor.slot := congrArg Position.slot hlast
  rw [hs.ledger.start, UInt64.le_iff_toNat_le] at hstart
  have hlt := UInt64.lt_iff_toNat_lt.1 hslot
  obtain ⟨s, hmem, hat⟩ := hlog.exists_at_slot hstart (by rw [hanchor]; omega)
  have hrecord := (Ledger.record?_eq_some_iff hs.ledger.start hlog).2 ⟨hmem, hat⟩
  exact ⟨s, hmem, position_of_agrees hs.opened hs.ledger.opened hslot hagrees hrecord⟩

/-! ## 2. What a success says -/

-- The position that a call of the history itself finalizes.
def Call.target? (spec : Spec) : Call → Option Position
  | .hot _ => none
  | .finalize target => some target
  | .finalizeCheckpoint c => some (Frontier.checkpointPosition spec c)

variable [Archive τ]

theorem Sound.recorded_of_finalized (hs : h.Sound taken first) {u : ForkTree} {target : Position}
    {n : Nat} {g : Frontier (Ledger τ)} (hagrees : h.agrees target = .ok ())
    (hfinalized : Frontier.Finalized h.frontier u target (.ok n g))
    (hstart : h.ledger.start ≤ target.slot) (hafter : (⟨g⟩ : History τ).Sound taken first) :
    ∃ s ∈ g.sink.records.toList, s.position = target := by
  cases hfinalized with
  | before hslot => exact hs.recorded_of_agrees hstart hslot hagrees
  | anchor heq => exact heq ▸ hs.anchor_recorded
  | whole _ _ _ htree =>
    obtain ⟨s, hmem, hposition⟩ := hafter.anchor_recorded
    refine ⟨s, hmem, hposition.trans ?_⟩
    show g.tree.anchor = target
    rw [htree]
    rfl

theorem Call.recorded (c : Call) (hs : h.Sound taken first)
    (hK : CollisionFree (c.toHot.hashed h.frontier))
    (hafter : (c.after h).Sound taken first) {k : Position} (hk : c.target? h.spec = some k)
    (hok : c.outcome h = .ok ()) (hstart : h.ledger.start ≤ k.slot) :
    ∃ s ∈ (c.after h).ledger.records.toList, s.position = k := by
  cases c with
  | hot c => cases hk
  | finalize target =>
    cases hk
    obtain ⟨n, houtcome⟩ := Outcome.done_eq_ok hok
    obtain ⟨h', heq⟩ := Operation.exists_of_outcome_ok houtcome
    have hleft : (Call.finalize k).after h = h' := Operation.after_eq_of_ok heq
    rw [hleft] at hafter ⊢
    rw [finalize_eq] at heq
    obtain ⟨hagrees, g, hg, rfl⟩ := ok_of_checked heq
    have hfinalized := Frontier.finalized_finalize k hs.tree hs.opened
    rw [hg] at hfinalized
    exact hs.recorded_of_finalized hagrees hfinalized hstart hafter
  | finalizeCheckpoint c =>
    cases hk
    obtain ⟨n, houtcome⟩ := Outcome.done_eq_ok hok
    obtain ⟨h', heq⟩ := Operation.exists_of_outcome_ok houtcome
    have hleft : (Call.finalizeCheckpoint c).after h = h' := Operation.after_eq_of_ok heq
    rw [hleft] at hafter ⊢
    rw [finalizeCheckpoint_eq] at heq
    obtain ⟨hagrees, g, hg, rfl⟩ := ok_of_checked heq
    rw [Frontier.Call.hashed_of_open _ hs.opened] at hK
    have hfinalized := Frontier.finalized_finalizeCheckpoint c hs.tree hs.opened hK.right
    rw [hg] at hfinalized
    exact hs.recorded_of_finalized hagrees hfinalized hstart hafter

/-! ## 3. Runs -/

/-- After `calls`, `c` finalizes `k` and succeeds, and `k` is not before the ledger. -/
structure Succeeds (h : History τ) (calls : List Call) (c : Call) (k : Position) : Prop where
  target : c.target? (play calls h).spec = some k
  outcome : c.outcome (play calls h) = .ok ()
  start : (play calls h).ledger.start ≤ k.slot

/-- Two positions on one branch: the block of the later one is that of the earlier one, or descends from
it by the parent roots of the blocks taken. -/
def OneBranch (taken : Block → Prop) (p q : Position) : Prop :=
  p.slot ≤ q.slot ∧ (p.root = q.root ∨ Relation.TransGen (Links taken) q.root p.root) ∨
    q.slot ≤ p.slot ∧ (q.root = p.root ∨ Relation.TransGen (Links taken) p.root q.root)

theorem recorded_of_succeeds (hsteady : Archive.Steady τ) {anchor : Snapshot}
    {specs : Spec → Prop} (hanchor : anchor.state.Reached specs) {spec : Spec} {archive : τ}
    (hstart : start anchor spec archive = .ok h) {calls later : List Call} {c : Call} {k : Position}
    (hK : CollisionFree (hashed (calls ++ c :: later) h)) (hc : h.Succeeds calls c k) :
    ∃ s ∈ (play (calls ++ c :: later) h).ledger.records.toList, s.position = k := by
  have hs := sound_start hanchor hstart (· ∈ accepted (calls ++ c :: later) h)
  rw [hashed_append, hashed_cons] at hK
  have htaken (b : Block) (hb : b ∈ accepted calls h ∨ b ∈ c.toHot.accepted (play calls h).frontier ∨
      b ∈ accepted later (c.after (play calls h))) : b ∈ accepted (calls ++ c :: later) h := by
    rw [accepted_append, accepted_cons, List.mem_append, List.mem_append]
    exact hb
  -- The invariant holds before the call and after it, and the records after it are kept to the end.
  have hbefore := (hs.play hsteady calls hK.left fun b hb => htaken b (Or.inl hb)).1
  have hafter :=
    (c.sound hsteady hK.right.left (fun b hb => htaken b (Or.inr (Or.inl hb))) hbefore).1
  have hprefix :=
    (hafter.play hsteady later hK.right.right fun b hb => htaken b (Or.inr (Or.inr hb))).2
  obtain ⟨s, hmem, hposition⟩ :=
    c.recorded hbefore hK.right.left hafter hc.target hc.outcome hc.start
  rw [play_append]
  exact ⟨s, hprefix.subset hmem, hposition⟩

/-- In any run of calls on a history whose archive may refuse but does not break off: the records of a
moment are the first ones of any later moment; the target of a finalization that succeeded is the entry
served for its slot from then on; and two finalizations that succeeded at one slot have the same target,
and at any two slots have targets on one branch. -/
theorem finality_of_run (hsteady : Archive.Steady τ) {anchor : Snapshot} {specs : Spec → Prop}
    (hanchor : anchor.state.Reached specs) {spec : Spec} {archive : τ}
    (hstart : start anchor spec archive = .ok h) (run : List Call) (hK : CollisionFree (hashed run h)) :
    (∀ calls later, run = calls ++ later →
        (play calls h).ledger.records.toList <+: (play run h).ledger.records.toList) ∧
      (∀ calls c later k, run = calls ++ c :: later → h.Succeeds calls c k →
        ∃ entry, Chain.bySlot (play run h) k.slot = .ok entry ∧ entry.position = k) ∧
      ∀ calls c later k calls' c' later' k', run = calls ++ c :: later → run = calls' ++ c' :: later' →
        h.Succeeds calls c k → h.Succeeds calls' c' k' →
        (k.slot = k'.slot → k = k') ∧ OneBranch (· ∈ accepted run h) k k' := by
  have hs := sound_of_start hsteady hanchor hstart run hK
  have hd := distinct_of_start hanchor hstart run hK
  have hrecorded {calls later : List Call} {c : Call} {k : Position}
      (hrun : run = calls ++ c :: later) (hc : h.Succeeds calls c k) :
      ∃ s ∈ (play run h).ledger.records.toList, s.position = k := by
    subst hrun
    exact recorded_of_succeeds hsteady hanchor hstart hK hc
  refine ⟨?_, ?_, ?_⟩
  · intro calls later hrun
    subst hrun
    have hbefore := sound_start hanchor hstart (· ∈ accepted (calls ++ later) h)
    rw [hashed_append] at hK
    rw [accepted_append] at hbefore
    have hcalls := (hbefore.play hsteady calls hK.left fun _ => List.mem_append_left _).1
    rw [play_append]
    exact (hcalls.play hsteady later hK.right fun _ => List.mem_append_right _).2
  · intro calls c later k hrun hc
    obtain ⟨s, hmem, rfl⟩ := hrecorded hrun hc
    exact ⟨_, hs.bySlot_of_recorded hmem, rfl⟩
  · intro calls c later k calls' c' later' k' hrun hrun' hc hc'
    obtain ⟨last, hlog⟩ := hs.ledger.chronicle
    obtain ⟨s, hmem, rfl⟩ := hrecorded hrun hc
    obtain ⟨s', hmem', rfl⟩ := hrecorded hrun' hc'
    refine ⟨fun heq => congrArg Summary.position (hlog.eq_of_slot_eq hmem hmem' heq), ?_⟩
    rcases Nat.le_total s.slot.toNat s'.slot.toNat with hle | hle
    · exact Or.inl ⟨UInt64.le_iff_toNat_le.2 hle, hlog.descends_of_slot_le hd hmem hmem' hle⟩
    · exact Or.inr ⟨UInt64.le_iff_toNat_le.2 hle, hlog.descends_of_slot_le hd hmem' hmem hle⟩

theorem finality_of_run_tiny :
    tinyHistory.Succeeds [.hot (.addBlock tinyBlock)] (.finalizeCheckpoint ⟨1, tinyBlock.root⟩)
        ⟨1, tinyBlock.root⟩ ∧
      ∃ entry, Chain.bySlot (play tinyRun tinyHistory) 1 = .ok entry ∧
        entry.position = ⟨1, tinyBlock.root⟩ := by
  have hsucceeds : tinyHistory.Succeeds [.hot (.addBlock tinyBlock)]
      (.finalizeCheckpoint ⟨1, tinyBlock.root⟩) ⟨1, tinyBlock.root⟩ := by
    obtain ⟨-, hspec, hledger, houtcome, -⟩ := evaluated_tiny
    have htarget : tinyCheckpoint.target? tinyGrown.spec = some ⟨1, tinyBlock.root⟩ := by
      rw [hspec]
      rfl
    exact ⟨htarget, Outcome.eq_ok_of_toBool houtcome, hledger⟩
  have hrun :=
    finality_of_run Ledger.tables_steady Frontier.reached_tiny start_tiny tinyRun collisionFree_tiny
  refine ⟨hsucceeds, ?_⟩
  exact hrun.2.1 [.hot (.addBlock tinyBlock)] (.finalizeCheckpoint ⟨1, tinyBlock.root⟩) []
    ⟨1, tinyBlock.root⟩ rfl hsucceeds

end BeaconHistory.History
