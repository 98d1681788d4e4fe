import BeaconHistory.Proofs.ForkTree.Stored
import BeaconHistory.Proofs.History.Finality
import BeaconHistory.Proofs.History.Use
import BeaconHistory.Proofs.Ledger.Placed

/-!
# History.Checkpoints — a checkpoint accepted as final

The epoch of a checkpoint comes from outside, and its first slot is computed modulo `2 ^ 64`.  Main
statement: if a checkpoint is accepted, then the entry at the slot that was computed is final and carries
its root, whatever collides and whatever the ledger ingested besides; the first slot of the epoch itself is
final exactly if it fits in 64 bits.
-/

namespace BeaconHistory

variable {τ : Type} {spec : Spec} {t : ForkTree} {l : Ledger τ}

-- The first slot of an epoch, however large it is.
def Spec.exactStart (spec : Spec) (epoch : UInt64) : Nat := epoch.toNat * spec.slotsPerEpoch.toNat

theorem Spec.toNat_epochStart (spec : Spec) (epoch : UInt64) :
    (spec.epochStart epoch).toNat = spec.exactStart epoch % 2 ^ 64 := UInt64.toNat_mul _ _

/-! ## 1. A tree on a ledger -/

/-- The anchor of the tree is on record in a ledger that was filled slot by slot.  An archive that does not
break off has left it open. -/
structure ForkTree.RestsOn [Archive τ] (spec : Spec) (t : ForkTree) (l : Ledger τ) : Prop where
  constants : t.spec = spec
  stored : t.Stored
  placed : l.Placed
  recorded : ∃ s ∈ l.records.toList, s.position = t.anchor
  opened : Archive.Steady τ → l.poisoned = false

namespace ForkTree.RestsOn

variable [Archive τ]

theorem insert (h : t.RestsOn spec l) (entry : Snapshot) (tip : Position) :
    (t.insert entry tip).RestsOn spec l :=
  ⟨h.constants, h.stored.insert entry tip, h.placed, h.recorded, h.opened⟩

theorem withHead (h : t.RestsOn spec l) (p : Position) : RestsOn spec { t with head := p } l :=
  ⟨h.constants, h.stored, h.placed, h.recorded, h.opened⟩

theorem reanchor (h : t.RestsOn spec l) {a : Position} (ha : ∃ s ∈ l.records.toList, s.position = a) :
    (t.reanchor a).1.RestsOn spec l :=
  ⟨(spec_reanchor t a).trans h.constants, h.stored.reanchor a, h.placed, ha, h.opened⟩

theorem told (h : t.RestsOn spec l) (entry : Snapshot) : t.RestsOn spec (l.told entry) := by
  refine ⟨h.constants, h.stored, h.placed.ingested entry, ?_, fun hsteady => ?_⟩
  · obtain ⟨s, hs, hposition⟩ := h.recorded
    exact ⟨s, (Ledger.records_prefix_ingest entry l).subset hs, hposition⟩
  · have hstands : l.Stands l.spec := ⟨h.opened hsteady, rfl⟩
    exact (hstands.told hsteady entry).opened

theorem handed (h : t.RestsOn spec l) (path : List Snapshot) :
    t.RestsOn spec (Frontier.handOver path l).sink := by
  refine Frontier.handOver_keeps (fun entry _ l hl => ?_) h
  rw [Ledger.left_offer]
  exact hl.told entry

end ForkTree.RestsOn

namespace Frontier

variable [Archive τ] {α : Type} {f : Frontier (Ledger τ)}

/-- The anchor of the frontier is on record in its ledger. -/
def Rests (spec : Spec) (f : Frontier (Ledger τ)) : Prop := f.tree.RestsOn spec f.sink

/-! ## 2. Calls -/

-- A frontier that is closed rests as it did.
theorem keeps_exclusively_rests {change : Change (Ledger τ) α} (hchange : change.Keeps (Rests spec)) :
    (exclusively change).Keeps (Rests spec) := keeps_exclusively (fun _ hf => hf) hchange

theorem Rests.settled (h : f.Rests spec) (path : List Snapshot) :
    (settled (handOver path f.sink).accepted f.tree).RestsOn spec (handOver path f.sink).sink := by
  have hhanded := ForkTree.RestsOn.handed h path
  unfold Frontier.settled
  cases hlast : (handOver path f.sink).accepted.getLast? with
  | none => exact hhanded
  | some last =>
    refine hhanded.reanchor ⟨last.summary, ?_, rfl⟩
    rw [Ledger.records_of_handOver]
    exact List.mem_append_right _ (List.mem_map_of_mem (List.mem_of_getLast? hlast))

theorem Rests.target_recorded (h : f.Rests spec) {target : Position} {path : List Snapshot}
    (hpath : f.tree.pathTo target = .ok path) (hstopped : (handOver path f.sink).stopped = none) :
    ∃ s ∈ (handOver path f.sink).sink.records.toList, s.position = target := by
  by_cases hanchor : target = f.tree.anchor
  · rw [hanchor]
    exact (ForkTree.RestsOn.handed h path).recorded
  · -- The branch ends with the entry of the target, and all of it was taken.
    obtain ⟨node, hnode, hlast⟩ := (ForkTree.branch_of_pathTo hpath).1.getLast? hanchor
    refine ⟨node.entry.summary, ?_, ForkTree.RestsOn.stored h target node hnode⟩
    rw [Ledger.records_of_handOver, accepted_eq_of_stopped path f.sink hstopped]
    exact List.mem_append_right _ (List.mem_map_of_mem (List.mem_of_getLast? hlast))

theorem keeps_finalizePath (target : Position) :
    (finalizePath target : Change (Ledger τ) Nat).Keeps (Rests spec) := by
  intro f hf
  rw [Operation.after_eq]
  cases hpath : f.tree.pathTo target with
  | error e =>
    rw [finalizePath_of_no_path hpath]
    exact hf
  | ok path =>
    cases hstopped : (handOver path f.sink).stopped with
    | none =>
      obtain ⟨metrics, heq⟩ := finalizePath_of_taken hpath hstopped
      rw [heq, Ledger.pruneAll_eq]
      exact (ForkTree.RestsOn.handed hf path).reanchor (hf.target_recorded hpath hstopped)
    | some stopped =>
      obtain ⟨entry, failure⟩ := stopped
      cases failure with
      | refused rejection =>
        obtain ⟨metrics, heq⟩ := finalizePath_of_refused hpath hstopped
        rw [heq, Ledger.pruneAll_eq]
        exact hf.settled path
      | broke fault =>
        rw [finalizePath_of_broke hpath hstopped]
        exact ForkTree.RestsOn.handed hf path

theorem keeps_finalizeAfter {growth : ForkTree.Growth Unit}
    (hgrowth : ∀ l : Ledger τ, growth.Keeps fun t => t.RestsOn spec l) (target : Position) :
    (finalizeAfter growth target : Change (Ledger τ) Nat).Keeps (Rests spec) := by
  refine keeps_exclusively_rests ((Operation.keeps_ofOutcome _).bind fun finalized => ?_)
  cases finalized with
  | true => exact Operation.keeps_pure 0
  | false => exact (keeps_onTree fun f => hgrowth f.sink).bind fun _ => keeps_finalizePath target

theorem keeps_addBlock (b : Block) : (addBlock b : Change (Ledger τ) Snapshot).Keeps (Rests spec) := by
  refine keeps_exclusively_rests (Operation.Keeps.bind ?_ fun entry => ?_)
  · exact keeps_onTree fun f => ForkTree.keeps_insertBlock (fun t entry tip ht => ht.insert entry tip) b
  · exact fun _ hf => hf

theorem keeps_setHead (root : Root) : (setHead root : Change (Ledger τ) Unit).Keeps (Rests spec) := by
  refine keeps_exclusively_rests (keeps_onTree fun f => Operation.keeps_get_bind fun t ht => ?_)
  cases t.blocks[root]? with
  | none => exact ht
  | some p => exact ht.withHead p

theorem keeps_finalize (target : Position) :
    (finalize target : Change (Ledger τ) Nat).Keeps (Rests spec) :=
  keeps_finalizeAfter (fun _ => Operation.keeps_pure ()) target

theorem keeps_finalizeCheckpoint (c : Checkpoint) :
    (finalizeCheckpoint c : Change (Ledger τ) Nat).Keeps (Rests spec) := by
  intro f hf
  rw [Operation.after_eq, finalizeCheckpoint_eq, ← Operation.after_eq]
  refine keeps_finalizeAfter (fun l => ?_) (checkpointPosition f.tree.spec c) f hf
  exact ForkTree.keeps_reachSlot (fun t entry tip ht => ht.insert entry tip) c.root _

/-- Whatever a call does, the anchor is on record after it. -/
theorem Call.rests (c : Call) (hf : f.Rests spec) : (c.after f).Rests spec := by
  cases c with
  | addBlock b => exact keeps_addBlock b f hf
  | setHead root => exact keeps_setHead root f hf
  | finalize target => exact keeps_finalize target f hf
  | finalizeCheckpoint c => exact keeps_finalizeCheckpoint c f hf

/-! ## 3. What a success says -/

theorem anchor_of_finalizePath {target : Position} {n : Nat} {g : Frontier (Ledger τ)}
    (heq : finalizePath target f = .ok n g) : g.poisoned = f.poisoned ∧ g.tree.anchor = target := by
  cases hpath : f.tree.pathTo target with
  | error e =>
    rw [finalizePath_of_no_path hpath] at heq
    cases heq
  | ok path =>
    cases hstopped : (handOver path f.sink).stopped with
    | none =>
      obtain ⟨metrics, htaken⟩ := finalizePath_of_taken hpath hstopped
      cases htaken.symm.trans heq
      exact ⟨rfl, ForkTree.anchor_reanchor f.tree target⟩
    | some stopped =>
      obtain ⟨entry, failure⟩ := stopped
      cases failure with
      | refused rejection =>
        obtain ⟨metrics, hrefused⟩ := finalizePath_of_refused hpath hstopped
        cases hrefused.symm.trans heq
      | broke fault => cases (finalizePath_of_broke hpath hstopped).symm.trans heq

/-- A finalization that succeeds changes nothing, as its target is not after the anchor, or makes its target
the anchor. -/
theorem anchor_of_finalizeAfter {growth : ForkTree.Growth Unit} {target : Position} {n : Nat}
    {g : Frontier (Ledger τ)} (heq : finalizeAfter growth target f = .ok n g) :
    g.poisoned = false ∧
      (g = f ∧ (target.slot < f.tree.anchor.slot ∨ target = f.tree.anchor) ∨ g.tree.anchor = target) := by
  cases hopen : f.poisoned with
  | true => cases (exclusively_of_poisoned _ hopen).symm.trans heq
  | false =>
    rw [finalizeAfter_eq growth target hopen] at heq
    cases hfinalized : isFinalized f.tree target with
    | error e =>
      rw [hfinalized] at heq
      cases heq
    | ok finalized =>
      rw [hfinalized] at heq
      cases finalized with
      | true =>
        cases heq
        exact ⟨hopen, Or.inl ⟨rfl, isFinalized_eq_true_iff.1 hfinalized⟩⟩
      | false =>
        dsimp only at heq
        cases hgrowth : growth f.tree with
        | error e u =>
          rw [hgrowth] at heq
          cases e <;> cases heq
        | ok _ u =>
          rw [hgrowth] at heq
          obtain ⟨hsame, hanchor⟩ := anchor_of_finalizePath (eq_of_closing heq)
          exact ⟨hsame.trans hopen, Or.inr hanchor⟩

end Frontier

namespace History

variable [Archive τ] {h h' : History τ}

theorem Use.rests (u : Use) (hrests : h.frontier.Rests spec) : (u.after h).frontier.Rests spec := by
  rw [u.frontier_after]
  cases u with
  | call c => exact c.toHot.rests hrests
  | ingest entry => exact ForkTree.RestsOn.told hrests entry

theorem rests_perform (uses : List Use) (hrests : h.frontier.Rests spec) :
    (perform uses h).frontier.Rests spec := by
  induction uses generalizing h with
  | nil => exact hrests
  | cons u uses ih => exact ih (u.rests hrests)

theorem rests_start {anchor : Snapshot} {archive : τ} (hstart : start anchor spec archive = .ok h) :
    h.frontier.Rests spec := by
  obtain ⟨-, archive', -, rfl⟩ := start_eq_ok_iff.1 hstart
  refine ⟨rfl, ForkTree.stored_plant spec anchor, ?_, ⟨anchor.summary, ?_, rfl⟩, fun _ => rfl⟩
  · exact (Ledger.placed_empty anchor.summary.slot spec archive').append (UInt64.add_zero _).symm
  · exact List.mem_singleton.2 rfl

theorem Call.after_of_accepted {c : Checkpoint} {n : Nat} (heq : History.finalizeCheckpoint c h = .ok n h') :
    (Call.finalizeCheckpoint c).after h = h' := Operation.after_eq_of_ok heq

theorem rests_of_accepted (hrests : h.frontier.Rests spec) {c : Checkpoint} {n : Nat}
    (heq : finalizeCheckpoint c h = .ok n h') : h'.frontier.Rests spec := by
  have hafter := (Use.call (.finalizeCheckpoint c)).rests hrests
  rwa [show (Use.call (.finalizeCheckpoint c)).after h = h' from Call.after_of_accepted heq] at hafter

/-- The slot is before the end of the ledger, and if it is not before the start, then its entry is on
record and served, and carries `root`. -/
structure FinalAt (h : History τ) (slot : Nat) (root : Root) : Prop where
  stop : ∃ stop, h.ledger.stop = .ok stop ∧ slot < stop.toNat
  entry : h.ledger.start.toNat ≤ slot → ∃ s ∈ h.ledger.records.toList, s.slot.toNat = slot ∧
    s.blockRoot = root ∧ Chain.bySlot h s.slot = .ok (.filed s h.ledger.spec)

theorem final_of_recorded (hrests : h.frontier.Rests spec) (hopen : h.frontier.poisoned = false)
    (hledger : h.ledger.poisoned = false)
    (hroom : h.ledger.start.toNat + h.ledger.records.size < 2 ^ 64) {target : Position}
    (hslot : target.slot ≤ h.frontier.tree.anchor.slot)
    (hrecorded : h.ledger.start ≤ target.slot → ∃ s ∈ h.ledger.records.toList, s.position = target) :
    h.FinalAt target.slot.toNat target.root := by
  constructor
  · obtain ⟨last, hlast, hanchor⟩ := hrests.recorded
    have hend := hrests.placed.slot_lt_next hroom hlast
    rw [show last.slot = h.frontier.tree.anchor.slot from congrArg Position.slot hanchor] at hend
    rw [UInt64.le_iff_toNat_le] at hslot
    exact ⟨_, Ledger.stop_of_open hledger, Nat.lt_of_le_of_lt hslot hend⟩
  · intro hstart
    obtain ⟨s, hs, rfl⟩ := hrecorded (UInt64.le_iff_toNat_le.2 hstart)
    exact ⟨s, hs, rfl, rfl,
      bySlot_of_record hopen hledger (hrests.placed.record?_of_mem hroom hs) hslot⟩

theorem final_of_anchor (hrests : h.frontier.Rests spec) (hopen : h.frontier.poisoned = false)
    (hledger : h.ledger.poisoned = false)
    (hroom : h.ledger.start.toNat + h.ledger.records.size < 2 ^ 64) {target : Position}
    (hanchor : h.frontier.tree.anchor = target) : h.FinalAt target.slot.toNat target.root := by
  subst hanchor
  exact final_of_recorded hrests hopen hledger hroom (UInt64.le_refl _) fun _ => hrests.recorded

/-- A checkpoint that a history accepts is final from then on, at the slot that was computed for it. -/
theorem final_of_finalizeCheckpoint (hrests : h.frontier.Rests spec) {c : Checkpoint} {n : Nat}
    (heq : finalizeCheckpoint c h = .ok n h') (hledger : h'.ledger.poisoned = false)
    (hroom : h'.ledger.start.toNat + h'.ledger.records.size < 2 ^ 64) :
    h'.FinalAt (spec.epochStart c.epoch).toNat c.root := by
  have hafter := rests_of_accepted hrests heq
  rw [finalizeCheckpoint_eq] at heq
  obtain ⟨hagrees, g, hg, rfl⟩ := ok_of_checked heq
  have htarget : Frontier.checkpointPosition h.spec c = ⟨spec.epochStart c.epoch, c.root⟩ := by
    rw [show h.spec = spec from hrests.constants]
    rfl
  rw [Frontier.finalizeCheckpoint_eq] at hg
  obtain ⟨hopen, hcase⟩ := Frontier.anchor_of_finalizeAfter hg
  rw [show Frontier.checkpointPosition h.frontier.tree.spec c = _ from htarget] at hcase
  rw [htarget] at hagrees
  rcases hcase with ⟨rfl, hslot | hanchor⟩ | hanchor
  · -- The ledger has an entry at every slot before the anchor, and agreed with the target.
    refine final_of_recorded hafter hopen hledger hroom (UInt64.le_of_lt hslot) fun hstart => ?_
    obtain ⟨last, hlast, hposition⟩ := hafter.recorded
    have hle : spec.epochStart c.epoch ≤ last.slot := by
      rw [show last.slot = h.frontier.tree.anchor.slot from congrArg Position.slot hposition]
      exact UInt64.le_of_lt hslot
    obtain ⟨s, hs, -, hrecord⟩ := hafter.placed.exists_record? hroom hlast hstart hle
    exact ⟨s, hs, position_of_agrees hopen hledger hslot hagrees hrecord⟩
  · exact final_of_anchor hafter hopen hledger hroom hanchor.symm
  · exact final_of_anchor hafter hopen hledger hroom hanchor

/-! ## 4. Any use -/

theorem FinalAt.slot_lt {slot : Nat} {root : Root} (hfinal : h.FinalAt slot root) : slot < 2 ^ 64 := by
  obtain ⟨stop, -, hlt⟩ := hfinal.stop
  exact Nat.lt_trans hlt stop.toNat_lt

/-- However a history was used, a checkpoint that it accepts is final at the slot that was computed for it;
it is final at the first slot of its epoch exactly if that slot fits in 64 bits.  The ledger has to be open
and its slots have to fit. -/
theorem final_of_uses {anchor : Snapshot} {archive : τ} (hstart : start anchor spec archive = .ok h)
    (uses : List Use) {c : Checkpoint} {n : Nat} (haccepted : finalizeCheckpoint c (perform uses h) = .ok n h')
    (hopen : Archive.Steady τ ∨ h'.ledger.poisoned = false)
    (hroom : h'.ledger.start.toNat + h'.ledger.records.size < 2 ^ 64) :
    h'.FinalAt (spec.exactStart c.epoch % 2 ^ 64) c.root ∧
      (h'.FinalAt (spec.exactStart c.epoch) c.root ↔ spec.exactStart c.epoch < 2 ^ 64) := by
  have hrests := rests_perform uses (rests_start hstart)
  have hledger : h'.ledger.poisoned = false := by
    rcases hopen with hsteady | hledger
    · exact (rests_of_accepted hrests haccepted).opened hsteady
    · exact hledger
  have hfinal := final_of_finalizeCheckpoint hrests haccepted hledger hroom
  rw [Spec.toNat_epochStart] at hfinal
  refine ⟨hfinal, FinalAt.slot_lt, fun hlt => ?_⟩
  rw [Nat.mod_eq_of_lt hlt] at hfinal
  exact hfinal

open Archive (Tables)
open Frontier (tinySpec tinyAnchor)

-- The small history accepts the block that it was given as a checkpoint.
theorem final_of_uses_tiny : ∃ n h', finalizeCheckpoint ⟨1, tinyBlock.root⟩
      (perform [.call (.hot (.addBlock tinyBlock))] tinyHistory) = .ok n h' ∧
    h'.FinalAt (tinySpec.exactStart 1) tinyBlock.root := by
  obtain ⟨-, -, -, houtcome, hanchor, -⟩ := evaluated_tiny
  obtain ⟨n, haccepted⟩ := Outcome.done_eq_ok (Outcome.eq_ok_of_toBool houtcome)
  obtain ⟨h', heq⟩ := Operation.exists_of_outcome_ok haccepted
  have hafter : tinyCheckpoint.after tinyGrown = h' := Call.after_of_accepted heq
  -- The ledger ends with the anchor, which is at slot 1.
  have hroom : h'.ledger.start.toNat + h'.ledger.records.size < 2 ^ 64 := by
    have hs := sound_of_start Ledger.tables_steady Frontier.reached_tiny start_tiny
      ([.hot (.addBlock tinyBlock)] ++ [tinyCheckpoint]) collisionFree_tiny
    have hplay (c : Call) (g : History Tables) : play [c] g = c.after g := rfl
    rw [play_append, hplay tinyCheckpoint,
      show play [.hot (.addBlock tinyBlock)] tinyHistory = tinyGrown from rfl, hafter] at hs
    obtain ⟨last, hlog, hlast⟩ := hs.exists_last
    have hslot : last.slot = 1 := by
      rw [← hafter, hanchor] at hlast
      exact congrArg Position.slot hlast
    have hcount := hlog.slot_last
    rw [hslot, Array.length_toList, ← hs.ledger.start, UInt64.toNat_one] at hcount
    omega
  have hfinal := final_of_uses start_tiny [.call (.hot (.addBlock tinyBlock))] heq
    (Or.inl Ledger.tables_steady) hroom
  exact ⟨n, h', heq, hfinal.2.2 (by decide)⟩

/-! ## 5. An epoch that does not fit -/

/-- Nothing before the start of the ledger is checked. -/
theorem accepted_before_start (hopen : h.frontier.poisoned = false) (hledger : h.ledger.poisoned = false)
    {c : Checkpoint} (hslot : h.spec.epochStart c.epoch < h.frontier.tree.anchor.slot)
    (hstart : h.spec.epochStart c.epoch < h.ledger.start) : finalizeCheckpoint c h = .ok 0 h := by
  have hbefore : (Frontier.checkpointPosition h.spec c).slot < h.frontier.tree.anchor.slot := hslot
  have hrecord : h.ledger.record? (Frontier.checkpointPosition h.spec c).slot = none := if_pos hstart
  have hagrees : h.agrees (Frontier.checkpointPosition h.spec c) = .ok () := by
    rw [agrees_of_lt hopen hledger hbefore, hrecord]
  have hkept : Frontier.finalizeCheckpoint c h.frontier = .ok 0 h.frontier :=
    Frontier.finalizeAfter_of_finalized _ hopen (Or.inl hslot)
  rw [finalizeCheckpoint_eq]
  unfold checked onFrontier
  rw [hagrees, hkept]

/-- After the anchor, the block of a checkpoint has to be known. -/
theorem refused_of_unknown (hopen : h.frontier.poisoned = false) {c : Checkpoint}
    (hslot : h.frontier.tree.anchor.slot < h.spec.epochStart c.epoch)
    (hroot : h.frontier.tree.blocks[c.root]? = none) :
    finalizeCheckpoint c h = .error (.refused (.frontier (.unknownBlock c.root))) h := by
  have hagrees : h.agrees (Frontier.checkpointPosition h.spec c) = .ok () :=
    agrees_of_le hopen (UInt64.le_of_lt hslot)
  have hfinalized : Frontier.isFinalized h.frontier.tree (Frontier.checkpointPosition h.spec c) = .ok false :=
    Frontier.isFinalized_eq_false_iff.2 hslot
  have hrefused : Frontier.finalizeCheckpoint c h.frontier =
      .error (.refused (.unknownBlock c.root)) h.frontier := by
    rw [Frontier.finalizeCheckpoint_eq, Frontier.finalizeAfter_eq _ _ hopen,
      show Frontier.isFinalized h.frontier.tree (Frontier.checkpointPosition h.frontier.tree.spec c) = _ from
        hfinalized]
    unfold ForkTree.reachSlot
    rw [Operation.get_bind, hroot]
    rfl
  rw [finalizeCheckpoint_eq]
  unfold checked onFrontier
  rw [hagrees, hrefused]
  rfl

-- Two slots an epoch, the first one being slot 1.
def evenSpec : Spec := ⟨2, 1, 1, 1⟩

def evenAnchor : Snapshot := .ofState evenSpec (.genesis evenSpec 4 .zero)

def evenHistory : History Tables :=
  ⟨.plant evenAnchor (firstLedger evenAnchor evenSpec
    (Tables.empty.file evenAnchor.position evenAnchor.summary.stateRoot evenAnchor.state)) evenSpec⟩

-- The first epoch whose first slot does not fit.
def distantEpoch : UInt64 := 9223372036854775808

def unknownRoot : Root := .filled 0x77

theorem start_even : start evenAnchor evenSpec Tables.empty = .ok evenHistory :=
  start_eq_ok_iff.2 ⟨rfl, _, Ledger.put_eq_ok (by simp [Tables.empty]) _ _, rfl⟩

/-- A checkpoint of a block that nobody knows is refused at the last epoch that fits, and accepted as final
already one epoch later, though the ledger ends at slot 2. -/
theorem accepts_distant :
    start evenAnchor evenSpec Tables.empty = .ok evenHistory ∧
      finalizeCheckpoint ⟨distantEpoch - 1, unknownRoot⟩ evenHistory =
        .error (.refused (.frontier (.unknownBlock unknownRoot))) evenHistory ∧
      finalizeCheckpoint ⟨distantEpoch, unknownRoot⟩ evenHistory = .ok 0 evenHistory ∧
      evenHistory.ledger.stop = .ok 2 ∧ evenSpec.exactStart distantEpoch = 2 ^ 64 ∧
      ¬ evenHistory.FinalAt (evenSpec.exactStart distantEpoch) unknownRoot := by
  have hanchor : evenHistory.frontier.tree.anchor.slot = 1 := rfl
  have hstart : evenHistory.ledger.start = 1 := rfl
  have hwraps : evenSpec.exactStart distantEpoch = 2 ^ 64 := rfl
  have hslot : evenHistory.spec.epochStart distantEpoch = 0 := rfl
  have hbefore : evenHistory.spec.epochStart (distantEpoch - 1) = 18446744073709551614 := rfl
  have hunknown : evenHistory.frontier.tree.blocks[unknownRoot]? = none := by
    refine (Lookup.getElem?_insert _ _ _ _).trans ?_
    rw [if_neg (by decide +kernel), Std.ExtTreeMap.getElem?_empty]
  refine ⟨start_even, refused_of_unknown rfl ?_ hunknown, accepted_before_start rfl rfl ?_ ?_, rfl, hwraps, ?_⟩
  · rw [hanchor, hbefore]
    decide
  · rw [hanchor, hslot]
    decide
  · rw [hstart, hslot]
    decide
  · intro hfinal
    rw [hwraps] at hfinal
    exact Nat.lt_irrefl _ hfinal.slot_lt

end History

end BeaconHistory
