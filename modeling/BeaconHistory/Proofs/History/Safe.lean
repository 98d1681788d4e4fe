import BeaconHistory.Proofs.Frontier.Steady
import BeaconHistory.Proofs.Guards
import BeaconHistory.Proofs.History.Exclusive
import BeaconHistory.Proofs.History.Served
import BeaconHistory.Proofs.History.Towards
import BeaconHistory.Proofs.History.Use

/-!
# History.Safe — nothing leaves its domain

Whatever divides, reads a cell of a ring or takes one slot from another relies on a check that was made
elsewhere: when the history was started, when the anchor was moved, or before a loop.  Main statement: with
constants that can divide, nothing that is done with a state leaves its domain, be the state as it may; nor
does anything that a history is told or asked, however it was used before.
-/

namespace BeaconHistory

variable {spec own : Spec}

/-! ## 1. Entries -/

namespace Entry

/-- Nothing that is read of the entry leaves its domain, whatever its files hold and its memo keeps. -/
structure Safe (e : Entry) : Prop where
  state : ∀ (files : Files) (ctx : Context) (memo : Memo), (e.state files ctx).Steady memo
  duties : ∀ (files : Files) (ctx : Context) (memo : Memo), (e.duties files ctx).Steady memo
  states : ∀ s : State, s.Safe e.spec

theorem state_steady (files : Files) (ctx : Context) (e : Entry) (memo : Memo) :
    (e.state files ctx).Steady memo := by
  intro fault memo' h
  cases e with
  | node x => cases h
  | advanced x => cases h
  | filed summary spec =>
    unfold state at h
    dsimp only at h
    split at h
    · cases h
    split at h
    · next hcheck =>
      cases h
      exact ctx.check_steady fault hcheck
    · split at h <;> cases h

theorem stateForDuties_steady (files : Files) (ctx : Context) (e : Entry) (memo : Memo) :
    (e.stateForDuties files ctx).Steady memo := by
  intro fault memo' h
  cases e with
  | node x | advanced x =>
    unfold stateForDuties at h
    dsimp only at h
    split at h
    · next hcheck =>
      cases h
      exact ctx.check_steady fault hcheck
    · cases h
  | filed summary spec => exact state_steady files ctx (.filed summary spec) memo fault memo' h

/-- An entry that is read with constants that can divide is safe. -/
theorem safe {e : Entry} (hspec : e.spec.validate = .ok ()) : e.Safe where
  state files ctx memo := e.state_steady files ctx memo
  duties files ctx memo := by
    intro fault memo' h
    rw [duties_eq] at h
    split at h
    · cases h
    split at h
    · next hstate =>
      cases h
      exact e.stateForDuties_steady files ctx memo _ _ hstate
    · next s _ _ =>
      split at h
      · next hduties =>
        cases h
        exact (State.duties_steady hspec s).mapReason _ fault hduties
      · cases h
  states s := s.safe hspec

end Entry

/-! ## 2. Chains -/

namespace Query

variable {γ : Type} [Chain γ] {c : γ}

theorem leaveSlots_steady (hspec : spec.validate = .ok ()) (ctx : Context) (n : Nat) (s : State) :
    (leaveSlots ctx spec n s).Steady := by
  induction n generalizing s with
  | zero => exact Outcome.steady_ok s
  | succ n ih =>
    refine (ctx.check_steady).bind fun _ _ => ?_
    exact ((State.advanced_steady hspec (s.slot + 1) s).mapReason _).bind fun t _ => ih t

theorem advance_steady (hspec : spec.validate = .ok ()) (ctx : Context) (files : Files) (start : Entry)
    (slot : UInt64) : (advance ctx spec files start slot).Steady := by
  unfold advance
  split
  · exact Outcome.steady_ok _
  · refine (start.state_steady files ctx .empty).outcome.bind fun s _ => ?_
    exact (leaveSlots_steady hspec ctx _ s).bind fun t _ => Outcome.steady_ok _

theorem towards_steady (hspec : (Chain.spec c).validate = .ok ()) (ctx : Context) (root : Root)
    (slot : UInt64) : (towards c ctx root slot).Steady := by
  refine (Outcome.steady_ofExcept _).bind fun block _ => ?_
  split
  · exact Outcome.steady_refuse_bind _ _
  · exact (Outcome.steady_ofExcept _).bind fun start _ => advance_steady hspec ctx _ start slot

/-- No question to the chain leaves its domain, and nothing that is read of an answer or a range does. -/
structure Safe (c : γ) : Prop where
  answers : ∀ (q : Question) (e : Entry), q.ask c = .ok e → e.Safe
  towards : ∀ (ctx : Context) (root : Root) (slot : UInt64), (towards c ctx root slot).Steady
  -- So it is if the context changes on the way.
  midway : ∀ (clock : Nat → Context) (root : Root) (slot : UInt64), (towardsOn c clock root slot).Steady
  arrivals : ∀ (ctx : Context) (root : Root) (slot : UInt64) (a : Arrival),
    Query.towards c ctx root slot = .ok a → a.entry.Safe
  -- A range may be read from the files of a later moment.
  ranges : ∀ (span : Span) (files : Files) (slot : UInt64), Chain.span c = .ok span →
    span.guardedEntry files slot = some (span.entry files slot) ∧
      ∀ e, span.entry files slot = .ok e → (∀ x, files.entryAt slot = .ok x → x.Safe) → e.Safe
  files : ∀ (slot : UInt64) (e : Entry), (Chain.files c).entryAt slot = .ok e → e.Safe

/-- A chain is safe if all that it holds is read with constants that can divide. -/
theorem safe (hspec : (Chain.spec c).validate = .ok ())
    (hask : ∀ (q : Question) (e : Entry), q.ask c = .ok e → e.spec.validate = .ok ())
    (hspan : ∀ span, Chain.span c = .ok span → ∀ x ∈ span.snapshots, x.spec.validate = .ok ())
    (hfiles : ∀ (slot : UInt64) (e : Entry),
      (Chain.files c).entryAt slot = .ok e → e.spec.validate = .ok ()) : Safe c where
  answers q e he := Entry.safe (hask q e he)
  towards := towards_steady hspec
  midway clock root slot := by
    rcases towardsOn_eq_or c clock root slot with heq | ⟨e, heq, -⟩
    · rw [heq]
      exact towards_steady hspec .unbounded root slot
    · rw [heq]
      exact Outcome.steady_refuse e
  arrivals ctx root slot a ha := by
    obtain ⟨start, hclosest, hadvance⟩ := towards_eq_ok ha
    rcases advance_eq_ok hadvance with heq | ⟨_, _, t, -, -, heq⟩
    · rw [heq]
      exact Entry.safe (hask (.closest root slot) start hclosest)
    · rw [heq]
      exact Entry.safe hspec
  ranges span files slot hopened := by
    refine ⟨Span.guardedEntry_eq files slot span, fun e he hread => ?_⟩
    rcases Span.entry_cases he with hfiled | ⟨x, hx, rfl⟩
    · exact hread e hfiled
    · exact Entry.safe (hspan span hopened x hx)
  files slot e he := Entry.safe (hfiles slot e he)

end Query

/-! ## 3. What the regions hold -/

theorem Frontier.exists_of_ask {σ : Type} {f : Frontier σ} (hopen : f.poisoned = false)
    (ht : f.tree.Sound) {q : Question} {e : Entry} (he : q.ask f = .ok e) :
    ∃ x, f.tree.Unfinalized x ∧ e = .node x := by
  have hheld {p : Position} {x : Snapshot} (hx : f.tree.unfinalized? p = some x) : f.tree.Unfinalized x :=
    (ht.unfinalized?_eq_some_iff.1 hx).1
  rw [ask_of_open hopen] at he
  cases q with
  | stateRoot root =>
    obtain ⟨x, hx, rfl⟩ := serve_eq_ok_iff.1 he
    obtain ⟨p, -, hx⟩ := Option.bind_eq_some_iff.1 hx
    exact ⟨x, hheld hx, rfl⟩
  | blockRoot root =>
    obtain ⟨x, hx, rfl⟩ := serve_eq_ok_iff.1 he
    obtain ⟨p, -, hx⟩ := Option.bind_eq_some_iff.1 hx
    exact ⟨x, hheld hx, rfl⟩
  | position p =>
    obtain ⟨x, hx, rfl⟩ := serve_eq_ok_iff.1 he
    exact ⟨x, hheld hx, rfl⟩
  | slot s =>
    obtain ⟨x, hx, rfl⟩ := serve_eq_ok_iff.1 he
    exact ⟨x, (ht.canonical?_eq_some_iff.1 hx).1, rfl⟩
  | closest root bound =>
    dsimp only [ForkTree.closest] at he
    split at he
    · cases he
    · split at he
      · cases he
      · split at he
        · next x hx =>
          cases he
          exact ⟨x, hheld hx, rfl⟩
        · cases he

theorem Ledger.exists_of_ask {τ : Type} [Archive τ] {l : Ledger τ} (hopen : l.poisoned = false)
    {q : Question} {e : Entry} (he : q.ask l = .ok e) : ∃ s, e = .filed s l.spec := by
  have hserved {missing : Query.Error} {found : Option Summary} (h : l.serve missing found = .ok e) :
      ∃ s, e = .filed s l.spec := by
    obtain ⟨s, -, heq⟩ := serve_eq_ok_iff.1 h
    exact ⟨s, heq⟩
  rw [ask_of_open hopen] at he
  cases q with
  | stateRoot root => exact hserved he
  | blockRoot root => exact hserved he
  | position p => exact hserved he
  | slot s => exact hserved he
  | closest root bound =>
    dsimp only [closest] at he
    rw [opened_of_open hopen] at he
    dsimp only [bind, Except.bind] at he
    split at he
    · cases he
    · split at he
      · cases he
      · exact hserved he

namespace History

variable {τ : Type} [Archive τ] {h : History τ}

/-! ## 4. What a history is told -/

omit [Archive τ] in
theorem onFrontier_steady {α : Type} {change : Frontier.Change (Ledger τ) α}
    (hchange : change.Steady h.frontier) : (onFrontier change).Steady h := by
  intro fault h' hbroke
  unfold onFrontier at hbroke
  cases hresult : change h.frontier with
  | ok a f =>
    rw [hresult] at hbroke
    cases hbroke
  | error e f =>
    rw [hresult] at hbroke
    cases e with
    | refused e => cases hbroke
    | broke fault' => exact hchange fault' f hresult

omit [Archive τ] in
theorem checked_steady {target : Position} {change : Frontier.Change (Ledger τ) Nat}
    (hchange : change.Steady h.frontier) : (checked target change).Steady h := by
  intro fault h' hbroke
  unfold checked at hbroke
  cases hagrees : h.agrees target with
  | error e =>
    rw [hagrees] at hbroke
    cases hbroke
  | ok _ =>
    rw [hagrees] at hbroke
    exact onFrontier_steady hchange fault h' hbroke

theorem onLedger_steady (hsteady : Archive.Steady τ) (entry : Snapshot) :
    (onLedger (Ledger.ingest entry)).Steady h := by
  intro fault h' hbroke
  unfold onLedger at hbroke
  cases hresult : Ledger.ingest entry h.ledger with
  | ok a l =>
    rw [hresult] at hbroke
    cases hbroke
  | error e l =>
    rw [hresult] at hbroke
    cases e with
    | refused e => cases hbroke
    | broke fault' => exact Ledger.ingest_steady hsteady entry h.ledger fault' l hresult

/-- Whatever a history is told, it does not break off. -/
theorem Use.steady (hsteady : Archive.Steady τ) (hspec : h.frontier.tree.spec.validate = .ok ())
    (u : Use) : (u.outcome h).Steady := by
  have hsink := Ledger.sink_steady hsteady
  cases u with
  | ingest entry => exact (onLedger_steady hsteady entry).outcome
  | call c =>
    cases c with
    | hot c => exact (c.steady hsink hspec).mapReason _
    | finalize target =>
      refine Outcome.Steady.done (Operation.Steady.outcome fun fault h' hbroke => ?_)
      rw [finalize_eq] at hbroke
      exact checked_steady (Frontier.finalize_steady hsink hspec target) fault h' hbroke
    | finalizeCheckpoint c =>
      refine Outcome.Steady.done (Operation.Steady.outcome fun fault h' hbroke => ?_)
      rw [finalizeCheckpoint_eq] at hbroke
      exact checked_steady (Frontier.finalizeCheckpoint_steady hsink hspec c) fault h' hbroke

theorem start_steady (hsteady : Archive.Steady τ) (anchor : Snapshot) (spec : Spec) (archive : τ) :
    (start anchor spec archive).Steady := by
  refine ((Outcome.steady_ofExcept spec.validate).mapReason _).bind fun _ _ => ?_
  exact ((Ledger.ingest_steady hsteady anchor _).reach.mapReason _).bind fun _ _ => Outcome.steady_ok _

/-! ## 5. Runs -/

/-- Nothing that the history is told or asked leaves its domain.  The anchor that it started from is an
entry read with constants of its own. -/
structure Safe (own : Spec) (h : History τ) : Prop where
  told : ∀ u : Use, (u.outcome h).Steady
  asked : Query.Safe h
  frontier : Query.Safe h.frontier
  ledger : Query.Safe h.ledger
  ends : ∀ e, own.validate = .ok () → h.frontier.head = .ok e ∨ h.frontier.finalized = .ok e → e.Safe
  last : ∀ e, h.ledger.head = .ok e → e.Safe
  -- No slot is taken from an earlier one.
  inserted : ∀ b : Block,
    ForkTree.guardedInsertBlock b h.frontier.tree = some (ForkTree.insertBlock b h.frontier.tree)
  branch : h.frontier.tree.guardedBranch = some h.frontier.tree.canonicalBranch

theorem Stands.safe (hsteady : Archive.Steady τ) (hspec : spec.validate = .ok ())
    (hs : h.Stands spec own) : h.Safe own := by
  have htree : h.frontier.tree.spec.validate = .ok () := by rw [hs.constants, hspec]
  have hheld {x : Snapshot} (hx : h.frontier.tree.Unfinalized x) : x.spec.validate = .ok () := by
    obtain ⟨p, node, hnode, hne, rfl⟩ := hx
    obtain ⟨hread, -⟩ := hs.derived p node hnode hne
    rw [hread, htree]
  have hhot (q : Question) (e : Entry) (he : q.ask h.frontier = .ok e) : e.spec.validate = .ok () := by
    obtain ⟨x, hx, rfl⟩ := Frontier.exists_of_ask hs.opened hs.tree he
    exact hheld hx
  have hcold (q : Question) (e : Entry) (he : q.ask h.ledger = .ok e) : e.spec.validate = .ok () := by
    obtain ⟨s, rfl⟩ := Ledger.exists_of_ask hs.ledger.opened he
    show h.ledger.spec.validate = .ok ()
    rw [hs.ledger.constants, hspec]
  have hask (q : Question) (e : Entry) (he : q.ask h = .ok e) : e.spec.validate = .ok () := by
    rw [ask_eq] at he
    split at he
    · next hhot' =>
      cases he
      exact hhot q e hhot'
    · split at he
      · next hcold' =>
        cases he
        exact hcold q e hcold'
      · cases he
  have hbranch {x : Snapshot} (hx : x ∈ h.frontier.tree.canonicalBranch) : x.spec.validate = .ok () :=
    hheld (ForkTree.unfinalized_of_mem_canonicalBranch hx)
  have hnode (hown : own.validate = .ok ()) {p : Position} {e : Entry}
      (he : (h.frontier.tree.snapshot p).map Entry.node = .ok e) : e.Safe := by
    unfold ForkTree.snapshot ForkTree.snapshot? at he
    cases hnode : h.frontier.tree.nodes[p]? with
    | none =>
      rw [hnode] at he
      cases he
    | some node =>
      rw [hnode] at he
      cases he
      refine Entry.safe ?_
      show node.entry.spec.validate = .ok ()
      rcases hs.entries p node hnode with hread | hread
      · rw [hread, hspec]
      · rw [hread, hown]
  have hfiles (slot : UInt64) (e : Entry) (he : h.ledger.files.entryAt slot = .ok e) :
      e.spec.validate = .ok () := hcold (.slot slot) e he
  exact {
    told := fun u => u.steady hsteady htree
    asked := Query.safe htree hask
      (fun span hspan x hx => by
        rw [span_of_open hs.opened hs.ledger.opened] at hspan
        cases hspan
        exact hbranch hx)
      hfiles
    frontier := Query.safe htree hhot
      (fun span hspan x hx => by
        rw [Frontier.span_of_open hs.opened] at hspan
        cases hspan
        exact hbranch hx)
      (fun _ _ he => by cases he)
    ledger := Query.safe (show h.ledger.spec.validate = .ok () by rw [hs.ledger.constants, hspec]) hcold
      (fun span hspan x hx => by
        rw [Ledger.span_of_open hs.ledger.opened] at hspan
        cases hspan
        cases hx)
      hfiles
    ends := fun e hown he => by
      rw [Frontier.head_of_open hs.opened, Frontier.finalized_of_open hs.opened] at he
      exact he.elim (hnode hown) (hnode hown)
    last := fun e he => by
      rw [Ledger.head_of_open hs.ledger.opened] at he
      obtain ⟨s, -, rfl⟩ := Ledger.serve_eq_ok_iff.1 he
      refine Entry.safe ?_
      show h.ledger.spec.validate = .ok ()
      rw [hs.ledger.constants, hspec]
    inserted := fun b => ForkTree.guardedInsertBlock_eq b h.frontier.tree
    branch := hs.tree.guardedBranch_eq }

/-- With constants that can divide, nothing that is done with a state leaves its domain, be its slot, its
rings, its header and its validators as they may, and what fails leaves it as it was; and a history over an
archive that does not break off, from an anchor that a genesis state leads to, starts, takes calls and
entries and answers without ever leaving its domain, however it was used before. -/
theorem safe_of_validated (hspec : spec.validate = .ok ()) :
    (∀ s : State, s.Safe spec) ∧
      ∀ {τ : Type} [Archive τ], Archive.Steady τ → ∀ (anchor : Snapshot) (archive : τ),
        (start anchor spec archive).Steady ∧
          ∀ (specs : Spec → Prop) (h : History τ), anchor.state.Reached specs →
            start anchor spec archive = .ok h → ∀ uses : List Use, CollisionFree (hashedBy uses h) →
              (perform uses h).Safe anchor.spec := by
  refine ⟨fun s => s.safe hspec, fun hsteady anchor archive => ⟨start_steady hsteady anchor spec archive, ?_⟩⟩
  intro specs h hanchor hstart uses hK
  exact ((stands_start hanchor hstart).perform hsteady hspec uses hK).safe hsteady hspec

open Frontier (tinySpec tinyAnchor)

-- The small history, whose ledger is told once more to ingest the anchor.
theorem safe_of_validated_tiny :
    tinySpec.validate = .ok () ∧ (∀ s : State, s.Safe tinySpec) ∧
      CollisionFree (hashedBy (.ingest tinyAnchor :: tinyRun.map Use.call) tinyHistory) ∧
      (perform (.ingest tinyAnchor :: tinyRun.map Use.call) tinyHistory).Safe tinySpec := by
  have hspec : tinySpec.validate = .ok () := rfl
  -- The ledger is past the slot of the anchor.
  have hslot : tinyAnchor.summary.slot ≠ tinyHistory.ledger.next := by decide
  have hrefused : (Use.ingest tinyAnchor).after tinyHistory = tinyHistory :=
    Use.after_ingest_of_error rfl (if_pos hslot)
  have hK : CollisionFree (hashedBy (.ingest tinyAnchor :: tinyRun.map Use.call) tinyHistory) := by
    rw [hashedBy_ingest, hrefused, hashedBy_calls]
    exact collisionFree_tiny
  obtain ⟨hstates, hruns⟩ := safe_of_validated hspec
  obtain ⟨-, hsafe⟩ := hruns Ledger.tables_steady tinyAnchor Archive.Tables.empty
  exact ⟨hspec, hstates, hK, hsafe _ _ Frontier.reached_tiny start_tiny _ hK⟩

end History

end BeaconHistory
