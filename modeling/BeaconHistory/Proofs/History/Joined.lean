import BeaconHistory.Proofs.History.Run

/-!
# History.Joined — the two regions never drift apart

The ledger grows entry by entry while a branch is handed over, and the anchor moves once at the end.
Main statement: after any run of calls the ledger stops where the frontier starts, and no finalization
is rejected but by the archive.
-/

namespace BeaconHistory.History

variable {τ : Type} {h : History τ} {taken : Block → Prop} {first : Summary}

/-- The frontier starts right after the last record, which is its anchor. -/
structure Joined (h : History τ) : Prop where
  anchor : h.frontier.anchor = .ok h.frontier.tree.anchor
  stop : h.ledger.stop = .ok (h.frontier.tree.anchor.slot + 1)
  start : (Chain.span h.frontier).map Span.start = .ok (h.frontier.tree.anchor.slot + 1)
  last : ∃ summary, h.ledger.head.map Entry.summary = .ok summary ∧
    h.frontier.finalized.map Entry.summary = .ok summary

theorem Sound.joins (hs : h.Sound taken first) : h.Joined := by
  obtain ⟨entry, hentry, hlog⟩ := hs.joined
  have hslot : entry.summary.slot = h.frontier.tree.anchor.slot :=
    congrArg Position.slot (hs.tree.stored _ _ hentry)
  refine ⟨?_, ?_, ?_, entry.summary, ?_, ?_⟩
  · exact Frontier.anchor_of_open hs.opened
  · rw [Ledger.stop_of_open hs.ledger.opened, Ledger.next_eq hs.ledger.start hlog, hslot]
  · rw [Frontier.span_of_open hs.opened]
    rfl
  · rw [Ledger.head_of_open hs.ledger.opened, Ledger.back?_eq hlog]
    rfl
  · rw [Frontier.finalized_of_open hs.opened]
    unfold ForkTree.snapshot ForkTree.snapshot?
    rw [hentry]
    rfl

/-! ## 1. Rejections -/

theorem Sound.agrees_ne_sink (hs : h.Sound taken first) (target p : Position)
    (rejection : Frontier.Rejection) : h.agrees target ≠ .error (.frontier (.sink p rejection)) := by
  intro hne
  by_cases hslot : target.slot < h.frontier.tree.anchor.slot
  · rw [agrees_of_lt hs.opened hs.ledger.opened hslot] at hne
    split at hne
    · cases hne
    · split at hne <;> cases hne
  · rw [agrees_of_le hs.opened (UInt64.not_lt.1 hslot)] at hne
    cases hne

variable [Archive τ]

theorem Sound.rejected_toHot (hs : h.Sound taken first) {c : Call} {p : Position}
    {rejection : Frontier.Rejection}
    (hrejected : c.outcome h = .error (.refused (.frontier (.sink p rejection)))) :
    c.toHot.outcome h.frontier = .error (.refused (.sink p rejection)) := by
  cases c with
  | hot c =>
    obtain ⟨e, houtcome, he⟩ := Outcome.mapReason_eq_refused hrejected
    cases he
    exact houtcome
  | finalize target =>
    obtain ⟨h', heq⟩ := Operation.exists_of_outcome_error (Outcome.done_eq_error hrejected)
    rw [finalize_eq] at heq
    exact (refused_of_checked heq).resolve_left (hs.agrees_ne_sink _ p rejection)
  | finalizeCheckpoint c =>
    obtain ⟨h', heq⟩ := Operation.exists_of_outcome_error (Outcome.done_eq_error hrejected)
    rw [finalizeCheckpoint_eq] at heq
    exact (refused_of_checked heq).resolve_left (hs.agrees_ne_sink _ p rejection)

theorem Sound.rejected (hs : h.Sound taken first) (hsteady : Archive.Steady τ) {c : Call}
    (hK : CollisionFree (c.toHot.hashed h.frontier)) {p : Position} {rejection : Frontier.Rejection}
    (hrejected : c.outcome h = .error (.refused (.frontier (.sink p rejection)))) :
    ∃ e, rejection = .ledger (.archive e) := by
  obtain ⟨hgrown, path, target, entry, hpath, -, hstopped, -⟩ :=
    c.toHot.rejected hs.tree hK hs.opened (hs.rejected_toHot hrejected)
  -- The branch continues the records, so the ledger has no reason of its own.
  obtain ⟨-, -, hnone | ⟨entry', e, hsome⟩⟩ := hs.ledger.handed hsteady (hs.continues hgrown hpath)
  · rw [show (Frontier.handOver path h.ledger).stopped = _ from hstopped] at hnone
    cases hnone
  · rw [show (Frontier.handOver path h.ledger).stopped = _ from hstopped] at hsome
    cases hsome
    exact ⟨e, rfl⟩

/-! ## 2. Tables -/

open Archive (Tables)
open Ledger (tables_steady)

theorem filed_start {h : History Tables} {anchor : Snapshot} {spec : Spec}
    (hstart : start anchor spec Tables.empty = .ok h) : h.ledger.Filed := by
  obtain ⟨-, tables, hput, rfl⟩ := start_eq_ok_iff.1 hstart
  rw [Ledger.put_eq_ok (by simp [Tables.empty])] at hput
  cases hput
  have hempty : (Ledger.empty anchor.summary.slot spec Tables.empty).Filed := by
    intro p root hbound
    simp [Ledger.empty, Tables.empty] at hbound
  exact hempty.appended rfl anchor.state

theorem filed_move {h : History Tables} (hs : h.Sound taken first) (hfiled : h.ledger.Filed)
    {u : ForkTree} {g : Frontier (Ledger Tables)} (hmove : Frontier.Move taken h.frontier u g) :
    g.sink.Filed := by
  have hopen := hmove.opened (Ledger.sink_steady tables_steady) hs.spec hs.opened
  cases hmove with
  | grow _ _ hsink => exact hsink ▸ hfiled
  | settle hgrown hpath _ hsink =>
    rw [Ledger.pruneAll_eq] at hsink
    rw [hsink]
    exact (hfiled.handed hs.ledger (hs.continues hgrown hpath)).2
  | broke _ _ hpoisoned =>
    rw [hopen] at hpoisoned
    cases hpoisoned

theorem filed_play (calls : List Call) {h : History Tables} (hs : h.Sound taken first)
    (hK : CollisionFree (hashed calls h)) (htaken : ∀ b ∈ accepted calls h, taken b)
    (hfiled : h.ledger.Filed) : (play calls h).ledger.Filed :=
  keeps_play (I := fun h => h.ledger.Filed) hK (fun hs hfiled hmove _ => filed_move hs hfiled hmove)
    tables_steady calls (fun _ => id) htaken hs hfiled

theorem Sound.not_rejected {h : History Tables} (hs : h.Sound taken first) (hfiled : h.ledger.Filed)
    {c : Call} (hK : CollisionFree (c.toHot.hashed h.frontier)) (p : Position)
    (rejection : Frontier.Rejection) :
    c.outcome h ≠ .error (.refused (.frontier (.sink p rejection))) := by
  intro hrejected
  obtain ⟨hgrown, path, target, entry, hpath, -, hstopped, -⟩ :=
    c.toHot.rejected hs.tree hK hs.opened (hs.rejected_toHot hrejected)
  have hnone := (hfiled.handed hs.ledger (hs.continues hgrown hpath)).1
  rw [show (Frontier.handOver path h.ledger).stopped = _ from hstopped] at hnone
  cases hnone

/-! ## 3. Runs -/

/-- After any run of calls on a history whose archive may refuse but does not break off, the two regions
meet.  Whatever a next call reports of the ledger is a refusal of the archive, and with tables that
start empty nothing is reported. -/
theorem joined_of_run (hsteady : Archive.Steady τ) {anchor : Snapshot} {specs : Spec → Prop}
    (hanchor : anchor.state.Reached specs) {spec : Spec} {archive : τ} {h : History τ}
    (hstart : start anchor spec archive = .ok h) (calls : List Call)
    (hK : CollisionFree (hashed calls h)) :
    (play calls h).Joined ∧
      (∀ (c : Call) (p : Position) (rejection : Frontier.Rejection),
        CollisionFree (hashed (calls ++ [c]) h) →
        c.outcome (play calls h) = .error (.refused (.frontier (.sink p rejection))) →
        ∃ e, rejection = .ledger (.archive e)) ∧
      ∀ h₀ : History Tables, start anchor spec Tables.empty = .ok h₀ →
        ∀ (c : Call) (p : Position) (rejection : Frontier.Rejection),
          CollisionFree (hashed (calls ++ [c]) h₀) →
          c.outcome (play calls h₀) ≠ .error (.refused (.frontier (.sink p rejection))) := by
  have hsound := sound_of_start hsteady hanchor hstart calls hK
  refine ⟨hsound.joins, ?_, ?_⟩
  · intro c p rejection hKc hrejected
    rw [hashed_append, hashed_cons] at hKc
    exact hsound.rejected hsteady hKc.right.left hrejected
  · intro h₀ hstart₀ c p rejection hKc
    rw [hashed_append, hashed_cons] at hKc
    have hsound₀ := sound_of_start tables_steady hanchor hstart₀ calls hKc.left
    have hfiled := filed_play calls (sound_start hanchor hstart₀ _) hKc.left (fun _ hb => hb)
      (filed_start hstart₀)
    exact hsound₀.not_rejected hfiled hKc.right.left p rejection

theorem joined_of_run_tiny :
    CollisionFree (hashed tinyRun tinyHistory) ∧ (play tinyRun tinyHistory).Joined :=
  ⟨collisionFree_tiny,
    (joined_of_run tables_steady Frontier.reached_tiny start_tiny tinyRun collisionFree_tiny).1⟩

end BeaconHistory.History
