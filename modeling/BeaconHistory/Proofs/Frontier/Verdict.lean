import BeaconHistory.Proofs.Frontier.Fates
import BeaconHistory.Proofs.Frontier.Insertion
import BeaconHistory.Proofs.Frontier.Reading

/-!
# Frontier.Verdict — what a finalization answers

A finalization compares its target with the anchor, looks for the branch of the target, and offers it
to the sink.  Main statement: after any run the answer and what is left behind are told by where the
target lies and by which entry the sink rejects first, and no walk from a node misses the anchor.
-/

namespace BeaconHistory.Frontier

variable {σ : Type} {f g : Frontier σ}

/-! ## 1. Offers -/

section

variable [Sink σ]

/-- The sink takes `entries`, one after the other. -/
inductive Takes : List Snapshot → σ → σ → Prop where
  | none (s : σ) : Takes [] s s
  | next {entry : Snapshot} {later : List Snapshot} {s s' s'' : σ}
      (hoffer : Sink.offer entry s = .ok () s') (hlater : Takes later s' s'') :
      Takes (entry :: later) s s''

theorem takes_of_not_stopped (path : List Snapshot) (s : σ) (h : (handOver path s).stopped = none) :
    Takes path s (handOver path s).sink := by
  induction path generalizing s with
  | nil => exact .none s
  | cons entry path ih =>
    unfold handOver at h ⊢
    cases hoffer : Sink.offer entry s with
    | ok _ s' =>
      rw [hoffer] at h
      exact .next hoffer (ih s' h)
    | error failure s' =>
      rw [hoffer] at h
      cases h

-- What was taken before the entry that stopped a hand-over is all that the sink saw before it.
theorem takes_of_stopped (path : List Snapshot) (s : σ) {entry : Snapshot} {failure : Failure Rejection}
    (h : (handOver path s).stopped = some (entry, failure)) :
    ∃ s', Takes (handOver path s).accepted s s' ∧
      Sink.offer entry s' = .error failure (handOver path s).sink := by
  induction path generalizing s with
  | nil => cases h
  | cons first path ih =>
    unfold handOver at h ⊢
    cases hoffer : Sink.offer first s with
    | ok _ s' =>
      rw [hoffer] at h
      obtain ⟨s'', htakes, hrejects⟩ := ih s' h
      exact ⟨s'', .next hoffer htakes, hrejects⟩
    | error failure' s' =>
      rw [hoffer] at h
      cases h
      exact ⟨s, .none s, hoffer⟩

/-! ## 2. Answers -/

/-- The frontier `g` is `f` with its anchor at `a`, and what is beside `a` pruned, after the sink was
left at `s` by the offers.  The metrics are not looked at. -/
structure Advanced (f : Frontier σ) (a : Position) (s : σ) (g : Frontier σ) : Prop where
  anchor : g.tree.anchor = a
  opened : g.poisoned = f.poisoned
  stays : a = f.tree.anchor → g.tree = f.tree ∧ g.sink = s
  moves : a ≠ f.tree.anchor →
    g.tree = (f.tree.reanchor a).1 ∧ g.sink = pruneAll (f.tree.reanchor a).2 s

/-- What is answered when the branch `path` of `target` is offered to the sink. -/
inductive Offered (f : Frontier σ) (target : Position) (path : List Snapshot) :
    EStateM.Result (Failure Error) (Frontier σ) Nat → Prop where
  | whole {g : Frontier σ} {s : σ} (htakes : Takes path f.sink s) (hadvanced : Advanced f target s g) :
      Offered f target path (.ok (target.slot.toNat - f.tree.anchor.slot.toNat) g)
  -- The anchor moves to the entry at the slot before the one that is rejected.
  | part {g : Frontier σ} {s s' : σ} {taken later : List Snapshot} {entry : Snapshot} {a : Position}
      {rejection : Rejection} (hpath : path = taken ++ entry :: later) (htakes : Takes taken f.sink s)
      (hrejects : Sink.offer entry s = .error (.refused rejection) s') (hbefore : f.tree.Branch taken a)
      (hslot : a.slot.toNat + 1 = entry.summary.slot.toNat) (hadvanced : Advanced f a s' g) :
      Offered f target path (.error (.refused (.sink entry.position rejection)) g)

/-- The answers to the finalization of `target`, by where it lies. -/
structure Verdict (f : Frontier σ) (target : Position) : Prop where
  done : target.slot < f.tree.anchor.slot ∨ target = f.tree.anchor → finalize target f = .ok 0 f
  conflict : target.slot = f.tree.anchor.slot → target ≠ f.tree.anchor →
    finalize target f = .error (.refused (.conflictsWithFinalized target f.tree.anchor)) f
  unknown : f.tree.anchor.slot < target.slot → target ∉ f.tree.nodes →
    finalize target f = .error (.refused (.unknownEntry target)) f
  -- The branch of a later node has one entry for each slot after the anchor.
  offered : f.tree.anchor.slot < target.slot → target ∈ f.tree.nodes →
    ∃ path, f.tree.Branch path target ∧
      path.map (fun e => e.summary.slot.toNat) = List.range' (f.tree.anchor.slot.toNat + 1)
        (target.slot.toNat - f.tree.anchor.slot.toNat) ∧
      Offered f target path (finalize target f)

theorem advanced_of_settles {a : Position} {s : σ} {taken : List Snapshot}
    (hsettles : Settles f.tree taken a) (metrics : Metrics) :
    Advanced f a s { f with
      tree := settled taken f.tree, sink := pruneAll (outcast taken f.tree) s, metrics := metrics } := by
  refine ⟨hsettles.anchor, rfl, fun hstays => ?_, fun hmoves => ?_⟩
  · cases hsettles with
    | stays _ htree hout =>
      rw [htree, hout]
      exact ⟨rfl, rfl⟩
    | moves _ _ hslot =>
      rw [hstays] at hslot
      exact absurd hslot (UInt64.lt_irrefl _)
  · cases hsettles with
    | stays => exact absurd rfl hmoves
    | moves _ _ _ htree hout =>
      rw [htree, hout]
      exact ⟨rfl, rfl⟩

theorem offered_finalize (hsteady : Sink.Steady σ) (ht : f.tree.Sound) (hopen : f.poisoned = false)
    {target : Position} (hslot : f.tree.anchor.slot < target.slot) {path : List Snapshot}
    (hpath : f.tree.pathTo target = .ok path) : Offered f target path (finalize target f) := by
  obtain ⟨hbranch, -⟩ := ForkTree.branch_of_pathTo hpath
  have hne : target ≠ f.tree.anchor := by
    rintro rfl
    exact UInt64.lt_irrefl _ hslot
  rw [finalize_eq_of_lt hopen hslot]
  cases hstopped : (handOver path f.sink).stopped with
  | none =>
    obtain ⟨metrics, heq⟩ := finalizePath_of_taken hpath hstopped
    have hlength : path.length = target.slot.toNat - f.tree.anchor.slot.toNat := by
      have hslots := congrArg List.length (hbranch.slots ht)
      rw [List.length_map, List.length_range'] at hslots
      exact hslots
    rw [heq, hlength]
    refine .whole (takes_of_not_stopped path f.sink hstopped) ⟨rfl, rfl, fun h => absurd h hne, fun _ => ?_⟩
    exact ⟨rfl, rfl⟩
  | some stop =>
    obtain ⟨entry, failure⟩ := stop
    cases failure with
    | broke fault => exact absurd hstopped (stopped_ne_broke hsteady path f.sink entry fault)
    | refused rejection =>
      obtain ⟨metrics, heq⟩ := finalizePath_of_refused hpath hstopped
      obtain ⟨s, htakes, hrejects⟩ := takes_of_stopped path f.sink hstopped
      obtain ⟨later, hlater⟩ := handOver_stopped hstopped
      obtain ⟨a, hbefore, -, hsettles⟩ := exists_settles ht hbranch (prefix_accepted path f.sink)
      rw [heq]
      refine .part (hlater.symm.trans (List.append_assoc _ _ _)) htakes hrejects hbefore ?_
        (advanced_of_settles hsettles metrics)
      -- The entry that is rejected is a child of the last one taken.
      obtain ⟨p, hnext, -⟩ := hbranch.of_prefix (handOver_stopped hstopped)
      obtain ⟨b, node, hsame, hnode, hentry, hparent⟩ := hnext.of_concat
      rw [hbefore.end_unique ht hsame, (ht.follows hnode hparent).slot, ← hentry]
      exact congrArg (fun q => q.slot.toNat) (ht.stored p node hnode).symm

/-- How every finalization on an open frontier with a sound tree ends. -/
theorem verdict_of_open (hsteady : Sink.Steady σ) (ht : f.tree.Sound) (hopen : f.poisoned = false)
    (target : Position) : Verdict f target := by
  constructor
  case done =>
    intro h
    exact finalizeAfter_of_finalized _ hopen h
  case conflict =>
    intro hslot hne
    rw [show finalize target f = _ from finalizeAfter_eq (pure ()) target hopen,
      isFinalized_of_conflict hslot hne]
  case unknown =>
    intro hslot hmem
    rw [finalize_eq_of_lt hopen hslot, finalizePath_of_no_path (ForkTree.pathTo_eq_error hmem)]
    rfl
  case offered =>
    intro hslot hmem
    obtain ⟨path, hpath⟩ := ht.exists_pathTo hmem
    obtain ⟨hbranch, -⟩ := ForkTree.branch_of_pathTo hpath
    exact ⟨path, hbranch, hbranch.slots ht, offered_finalize hsteady ht hopen hslot hpath⟩

/-! ## 3. Walks that miss the anchor -/

theorem finalizePath_not_stray (ht : f.tree.Sound) (target p a : Position) (g : Frontier σ) :
    finalizePath target f ≠ .error (.refused (.notDescendant p a)) g := by
  intro h
  by_cases hmem : target ∈ f.tree.nodes
  · obtain ⟨path, hpath⟩ := ht.exists_pathTo hmem
    cases hstopped : (handOver path f.sink).stopped with
    | none =>
      obtain ⟨_, heq⟩ := finalizePath_of_taken hpath hstopped
      rw [heq] at h
      cases h
    | some stop =>
      obtain ⟨entry, failure⟩ := stop
      cases failure with
      | refused rejection =>
        obtain ⟨_, heq⟩ := finalizePath_of_refused hpath hstopped
        rw [heq] at h
        cases h
      | broke fault =>
        rw [finalizePath_of_broke hpath hstopped] at h
        cases h
  · rw [finalizePath_of_no_path (ForkTree.pathTo_eq_error hmem)] at h
    cases h

theorem finalizeAfter_not_stray (hopen : f.poisoned = false) {target : Position}
    {growth : ForkTree.Growth Unit} (hfails : growth.Fails (ForkTree.GrowthFailure f.tree.spec) f.tree)
    (hsound : f.tree.anchor.slot < target.slot → (growth.after f.tree).Sound) (p a : Position)
    (g : Frontier σ) : finalizeAfter growth target f ≠ .error (.refused (.notDescendant p a)) g := by
  intro h
  rw [finalizeAfter_eq growth target hopen] at h
  by_cases hslot : f.tree.anchor.slot < target.slot
  · rw [isFinalized_eq_false_iff.2 hslot] at h
    have hafter := hsound hslot
    rw [Operation.after_eq] at hafter
    cases hgrown : growth f.tree with
    | ok _ u =>
      rw [hgrown] at h hafter
      exact finalizePath_not_stray (f := { f with tree := u }) hafter target p a g (eq_of_closing_refused h)
    | error e u =>
      rw [hgrown] at h
      cases eq_of_closing_refused h
      exact (hfails _ u hgrown).not_stray p a rfl
  · by_cases hdone : target.slot < f.tree.anchor.slot ∨ target = f.tree.anchor
    · rw [isFinalized_eq_true_iff.2 hdone] at h
      cases h
    · have hsame : target.slot = f.tree.anchor.slot :=
        (UInt64.lt_or_eq_of_le (UInt64.not_lt.1 hslot)).resolve_left fun hlt => hdone (Or.inl hlt)
      rw [isFinalized_of_conflict hsame fun heq => hdone (Or.inr heq)] at h
      cases h

/-- No call fails because a walk from a node does not come to the anchor. -/
theorem Call.not_stray (c : Call) (ht : f.tree.Sound) (hK : CollisionFree (c.hashed f)) (p a : Position) :
    c.outcome f ≠ .error (.refused (.notDescendant p a)) := by
  intro h
  have hopen := c.opened_of_outcome (by rw [h]; simp)
  rw [c.hashed_of_open hopen] at hK
  cases c with
  | addBlock b =>
    obtain ⟨g, hg⟩ := Operation.exists_of_outcome_error (Outcome.done_eq_error h)
    obtain ⟨_, heq⟩ := addBlock_eq b hopen
    rw [heq] at hg
    cases hu : ForkTree.insertBlock b f.tree with
    | ok entry u =>
      rw [hu] at hg
      cases hg
    | error e u =>
      have hfailure := ForkTree.insertBlock_fails b e u hu
      rw [hu] at hg
      cases e with
      | refused e =>
        cases hg
        exact hfailure.not_stray p a rfl
      | broke fault => cases hg
  | setHead root =>
    obtain ⟨g, hg⟩ := Operation.exists_of_outcome_error h
    rw [setHead_eq root hopen] at hg
    split at hg <;> cases hg
  | finalize target =>
    obtain ⟨g, hg⟩ := Operation.exists_of_outcome_error (Outcome.done_eq_error h)
    exact finalizeAfter_not_stray hopen (Operation.fails_of_ok rfl) (fun _ => ht) p a g hg
  | finalizeCheckpoint c =>
    obtain ⟨g, hg⟩ := Operation.exists_of_outcome_error (Outcome.done_eq_error h)
    rw [finalizeCheckpoint_eq] at hg
    have hgrown := sprouting_grown c ht hK.right
    refine finalizeAfter_not_stray hopen (ForkTree.reachSlot_fails _ _) (fun hslot => ?_) p a g hg
    rw [Call.grown, if_neg (UInt64.not_le.2 hslot)] at hgrown
    exact hgrown.sound ht

end

/-! ## 4. Runs -/

/-- Where the frontier stands is always told, with the entries that are kept at its head and anchor. -/
structure Located (f : Frontier σ) : Prop where
  anchor : f.anchor = .ok f.tree.anchor
  head : ∃ e, f.head = .ok (.node e) ∧ e.position = f.tree.head
  finalized : ∃ e, f.finalized = .ok (.node e) ∧ e.position = f.tree.anchor

theorem snapshot_of_mem (ht : f.tree.Sound) {p : Position} (hp : p ∈ f.tree.nodes) :
    ∃ e, f.tree.snapshot p = .ok e ∧ e.position = p := by
  obtain ⟨node, hnode⟩ := (Lookup.mem_iff_exists _ _).1 hp
  refine ⟨node.entry, ?_, ht.stored p node hnode⟩
  unfold ForkTree.snapshot ForkTree.snapshot?
  rw [hnode]
  rfl

theorem located_of_open (ht : f.tree.Sound) (hopen : f.poisoned = false) : Located f := by
  obtain ⟨head, hhead, hheadPosition⟩ := snapshot_of_mem ht ht.head_mem
  obtain ⟨anchor, hanchor, hanchorPosition⟩ := snapshot_of_mem ht ht.anchor_mem
  refine ⟨anchor_of_open hopen, ⟨head, ?_, hheadPosition⟩, ⟨anchor, ?_, hanchorPosition⟩⟩
  · rw [head_of_open hopen, hhead]
    rfl
  · rw [finalized_of_open hopen, hanchor]
    rfl

variable [Sink σ]

/-- After any run of calls in which none broke off, with any sink that does not break off either: every
finalization ends as its target and the rejections of the sink tell, no call ever meets a node that does
not descend from the anchor, and where the frontier stands is always told.  With constants that can
divide, no call breaks off. -/
theorem verdict_of_run (hsteady : Sink.Steady σ) (spec : Spec) (sink : σ) {anchor : Snapshot}
    {specs : Spec → Prop} (hanchor : anchor.state.Reached specs) (calls : List Call)
    (hK : CollisionFree (hashed calls (plant anchor sink spec))) :
    (spec.validate = .ok () → (play calls (plant anchor sink spec)).poisoned = false) ∧
      ((play calls (plant anchor sink spec)).poisoned = false →
        (∀ target, Verdict (play calls (plant anchor sink spec)) target) ∧
          Located (play calls (plant anchor sink spec)) ∧
          ∀ c : Call, CollisionFree (hashed (calls ++ [c]) (plant anchor sink spec)) →
            ∀ p a, c.outcome (play calls (plant anchor sink spec)) ≠
              .error (.refused (.notDescendant p a))) := by
  have hplant := ForkTree.sound_plant spec hanchor.aged
  have ht := sound_play calls (f := plant anchor sink spec) hplant hK
  refine ⟨fun hspec => open_play hsteady calls hspec hplant rfl hK, fun hopen => ⟨?_, ?_, ?_⟩⟩
  · exact verdict_of_open hsteady ht hopen
  · exact located_of_open ht hopen
  · intro c hKc
    rw [hashed_append] at hKc
    exact c.not_stray ht hKc.right.left

-- The branch of the tip is offered up to the tip itself, which the sink rejects.
theorem verdict_of_run_tiny :
    CollisionFree (hashed tinyFork (plant tinyAnchor tinyPicker tinySpec)) ∧
      (∀ target, Verdict (play tinyFork (plant tinyAnchor tinyPicker tinySpec)) target) ∧
      Located (play tinyFork (plant tinyAnchor tinyPicker tinySpec)) ∧
      (∃ path, (play tinyFork (plant tinyAnchor tinyPicker tinySpec)).tree.Branch path tinyTip ∧
        path.map (fun e => e.summary.slot.toNat) = [1, 2] ∧
        Offered (play tinyFork (plant tinyAnchor tinyPicker tinySpec)) tinyTip path
          (finalize tinyTip (play tinyFork (plant tinyAnchor tinyPicker tinySpec)))) ∧
      (Call.finalize tinyTip).outcome (play tinyFork (plant tinyAnchor tinyPicker tinySpec)) =
        .error (.refused (.sink tinyTip (.other "not yet"))) := by
  obtain ⟨hK, hbefore, -, -, hrejected, -⟩ := evaluated_fork
  rw [hashed_append] at hK
  obtain ⟨hopen, htold⟩ := verdict_of_run Picker.steady tinySpec tinyPicker reached_tiny tinyFork hK.left
  obtain ⟨hverdict, hlocated, -⟩ := htold (hopen (by decide))
  have hslot : (play tinyFork (plant tinyAnchor tinyPicker tinySpec)).tree.anchor.slot < tinyTip.slot := by
    rw [hbefore]
    decide
  obtain ⟨path, hbranch, hslots, hoffered⟩ := (hverdict tinyTip).offered hslot tinyTip_mem
  rw [hbefore] at hslots
  exact ⟨hK.left, hverdict, hlocated, ⟨path, hbranch, hslots, hoffered⟩,
    Outcome.eq_error_of_failure? hrejected⟩

end BeaconHistory.Frontier
