import BeaconHistory.Proofs.ForkTree.Cut
import BeaconHistory.Proofs.Frontier.Fates

/-!
# Frontier.Pieces — finalizing in pieces

However a target is reached, over intermediate targets or over attempts of which the sink took a part,
the tree that is left is the one that was there, cut at the target, and the sink was told the same.  Main
statement: finalizing in pieces, or until the sink takes all, is finalizing at once.
-/

namespace BeaconHistory.Frontier

variable {σ : Type}

/-- Two watched frontiers hold the same tree, and their sinks were told the same: the same entries were
taken in the same order, and the same entries were pruned. -/
structure Same {α β : Type} (g : Frontier (Watched α)) (g' : Frontier (Watched β)) : Prop where
  tree : g.tree = g'.tree
  accepted : g.sink.accepted = g'.sink.accepted
  pruned : g.sink.pruned.Perm g'.sink.pruned

/-! ## 1. On the way to a target -/

/-- `g` is on the way from the tree `w` to the target `k`. -/
structure Underway (w : ForkTree) (k : Position) (g : Frontier (Watched σ)) : Prop where
  accounts : Accounts w g
  cut : g.tree.Cut w
  ahead : w.Descends k g.tree.anchor

theorem underway_self {f : Frontier σ} {τ : Type} (sink : τ) (ht : f.tree.Sound)
    (hindexed : f.tree.Indexed) {k : Position} (hk : k ∈ f.tree.nodes) :
    Underway f.tree k (f.watchedBy sink) :=
  ⟨accounts_self (f := f.watchedBy sink) ht rfl rfl, .refl ht hindexed, ht.descends_anchor hk⟩

/-- Where two ways end at one anchor, they end alike. -/
theorem Underway.same {α β : Type} {w : ForkTree} {k : Position} {g : Frontier (Watched α)}
    {g' : Frontier (Watched β)} (h : Underway w k g) (h' : Underway w k g')
    (hanchor : g.tree.anchor = g'.tree.anchor) : Same g g' := by
  refine ⟨h.cut.eq h'.cut hanchor, h.accounts.accepted.unique (hanchor ▸ h'.accounts.accepted), ?_⟩
  have hnodup {γ : Type} {g : Frontier (Watched γ)} (h : Accounts w g) : g.sink.pruned.Nodup :=
    (List.pairwise_map.1 h.once).imp fun hne heq => hne (congrArg Snapshot.position heq)
  rw [List.perm_ext_iff_of_nodup (hnodup h.accounts) (hnodup h'.accounts)]
  intro e
  rw [h.accounts.pruned, h'.accounts.pruned, hanchor]

variable [Sink σ] {w : ForkTree} {k k₁ : Position} {g : Frontier (Watched σ)}

theorem Underway.settle (h : Underway w k g) (hK : CollisionFree w.hashed)
    (hk₁ : w.Descends k k₁) {path : List Snapshot} (hpath : g.tree.Branch path k₁)
    {g' : Frontier (Watched σ)} (htree : g'.tree = settled (handOver path g.sink).accepted g.tree)
    (hsink : g'.sink =
      pruneAll (outcast (handOver path g.sink).accepted g.tree) (handOver path g.sink).sink) :
    Underway w k g' := by
  obtain ⟨haccounts, hdescends⟩ := h.accounts.settle hpath htree hsink
  have ht := h.accounts.tree
  have hdown := (h.accounts.part.descends_iff ht h.accounts.whole (hpath.mem ht)).1 hdescends
  refine ⟨haccounts, ?_, hk₁.trans hdown.1⟩
  obtain ⟨a, -, -, hsettles⟩ := exists_settles ht hpath (prefix_accepted path g.sink)
  rw [htree]
  cases hsettles with
  | stays _ heq =>
    rw [heq]
    exact h.cut
  | moves hnode _ hslot heq =>
    rw [heq]
    exact h.cut.reanchor h.accounts.whole hK (Lookup.mem_of_eq_some hnode) hslot

omit [Sink σ] in
theorem Underway.of_eq (h : Underway w k g) {g' : Frontier (Watched σ)} (htree : g'.tree = g.tree)
    (hsink : g'.sink = g.sink) : Underway w k g' := by
  obtain ⟨haccounts, hcut, hahead⟩ := h
  obtain ⟨hwhole, ht, hpart, haccepted, hpruned, honce⟩ := haccounts
  rw [← htree] at ht hpart haccepted hpruned hcut hahead
  rw [← hsink] at haccepted hpruned honce
  exact ⟨⟨hwhole, ht, hpart, haccepted, hpruned, honce⟩, hcut, hahead⟩

/-- Finalizing an ancestor of the target stays on the way, whatever the sink does. -/
theorem Underway.finalize (h : Underway w k g) (hsteady : Sink.Steady σ) (hK : CollisionFree w.hashed)
    (hk₁ : w.Descends k k₁) : Underway w k ((Call.finalize k₁).after g) := by
  cases hopen : g.poisoned with
  | true =>
    rw [Call.after_of_poisoned _ hopen]
    exact h
  | false =>
    have hfinalized := finalized_finalize k₁ h.accounts.tree hopen
    show Underway w k (Operation.after (Frontier.finalize k₁) g)
    rw [Operation.after_eq]
    rcases hfinalized.settlement (.none g.tree) (fun _ => rfl) h.accounts.tree hopen with
      ⟨path, hsettles⟩ | ⟨htree, -, hcause⟩
    · obtain ⟨stop, hpath, hstop⟩ := hsettles.branch
      have hdown : w.Descends k stop := by
        rcases hstop with rfl | rfl
        · exact hk₁
        · exact h.ahead
      exact h.settle hK hdown hpath hsettles.tree hsettles.sink
    · refine h.of_eq htree ?_
      rcases hcause with ⟨hsink, -⟩ | ⟨path, entry, fault, hstopped⟩
      · exact hsink
      · exact absurd hstopped (stopped_ne_broke (Watched.steady hsteady) path g.sink entry fault)

/-- A target that is not behind the anchor is the anchor once its finalization succeeds. -/
theorem Underway.of_ok (h : Underway w k g) (hk : k ∈ w.nodes) {n : Nat}
    (hok : (Frontier.finalize k).outcome g = .ok n) :
    g.poisoned = false ∧ ((Call.finalize k).after g).tree.anchor = k ∧
      ((Call.finalize k).after g).poisoned = false := by
  obtain ⟨g', hg'⟩ := Operation.exists_of_outcome_ok hok
  have houtcome : (Call.finalize k).outcome g = .ok () := congrArg Outcome.done hok
  have hopen := (Call.finalize k).opened_of_outcome (f := g) (by rw [houtcome]; simp)
  have hfinalized := finalized_finalize k h.accounts.tree hopen
  rw [show (Call.finalize k).after g = g' from Operation.after_eq_of_ok hg']
  rw [hg'] at hfinalized
  refine ⟨hopen, ?_⟩
  cases hfinalized with
  | before hslot =>
    have hle := h.accounts.whole.slot_le_of_descends hk h.ahead
    rw [UInt64.lt_iff_toNat_lt] at hslot
    omega
  | anchor heq => exact ⟨heq.symm, hopen⟩
  | whole _ _ _ htree _ hopen' => exact ⟨by rw [htree, ForkTree.anchor_reanchor], hopen'⟩

/-! ## 2. Sinks that take everything -/

/-- The sink takes every entry. -/
def Sink.Accepting (σ : Type) [Sink σ] : Prop :=
  ∀ (entry : Snapshot) (sink : σ), ∃ sink', Sink.offer entry sink = .ok () sink'

theorem Sink.Accepting.steady (h : Sink.Accepting σ) : Sink.Steady σ := by
  intro entry sink fault sink' hbroke
  obtain ⟨_, hok⟩ := h entry sink
  rw [hok] at hbroke
  cases hbroke

theorem Watched.accepting (h : Sink.Accepting σ) : Sink.Accepting (Watched σ) := by
  intro entry w
  obtain ⟨sink, hok⟩ := h entry w.sink
  refine ⟨{ w with sink := sink, accepted := w.accepted ++ [entry] }, ?_⟩
  show Watched.offer entry w = _
  unfold Watched.offer
  rw [hok]

theorem stopped_eq_none (h : Sink.Accepting σ) (path : List Snapshot) (sink : σ) :
    (handOver path sink).stopped = none := by
  induction path generalizing sink with
  | nil => rfl
  | cons entry path ih =>
    obtain ⟨sink', hok⟩ := h entry sink
    unfold handOver
    rw [hok]
    exact ih sink'

/-- A sink that takes everything lets every node be finalized, at the count of its slots. -/
theorem finalize_of_accepting (haccepting : Sink.Accepting σ) {f : Frontier σ} (ht : f.tree.Sound)
    (hopen : f.poisoned = false) {target : Position} (htarget : target ∈ f.tree.nodes) :
    (finalize target).outcome f = .ok (target.slot.toNat - f.tree.anchor.slot.toNat) := by
  unfold Operation.outcome EStateM.run
  by_cases hslot : f.tree.anchor.slot < target.slot
  · obtain ⟨path, hpath⟩ := ht.exists_pathTo htarget
    obtain ⟨hbranch, -⟩ := ForkTree.branch_of_pathTo hpath
    obtain ⟨metrics, heq⟩ := finalizePath_of_taken hpath (stopped_eq_none haccepting path f.sink)
    have hlength := congrArg List.length (hbranch.slots ht)
    rw [List.length_map, List.length_range'] at hlength
    rw [finalize_eq_of_lt hopen hslot, heq, ← hlength]
    rfl
  · have hle := UInt64.le_iff_toNat_le.1 (UInt64.not_lt.1 hslot)
    have hanchor := ht.eq_anchor_of_slot_le htarget hle
    rw [show finalize target f = .ok 0 f from finalizeAfter_of_finalized _ hopen (Or.inr hanchor), hanchor,
      Nat.sub_self]

/-! ## 3. Pieces -/

theorem play_of_poisoned (calls : List Call) {f : Frontier σ} (h : f.poisoned = true) :
    play calls f = f := by
  induction calls with
  | nil => rfl
  | cons c calls ih =>
    show play calls (c.after f) = f
    rw [c.after_of_poisoned h, ih]

theorem Underway.play (h : Underway w k g) (hsteady : Sink.Steady σ) (hK : CollisionFree w.hashed)
    (n : Nat) :
    Underway w k (Frontier.play (List.replicate n (.finalize k)) g) := by
  induction n generalizing g with
  | zero => exact h
  | succ n ih => exact ih (h.finalize hsteady hK (ForkTree.descends_refl w k))

section

variable {τ : Type} {f : Frontier τ} (ht : f.tree.Sound) (hindexed : f.tree.Indexed)
  (hK : CollisionFree f.tree.hashed) (hopen : f.poisoned = false) {k₂ : Position}
  (hk₂ : k₂ ∈ f.tree.nodes) (haccepting : Sink.Accepting σ) (taker : σ)

include ht hindexed hK hopen hk₂ haccepting

-- Finalized at once, the target is the anchor.
theorem underway_at_once :
    Underway f.tree k₂ ((Call.finalize k₂).after (f.watchedBy taker)) ∧
      ((Call.finalize k₂).after (f.watchedBy taker)).tree.anchor = k₂ := by
  have hself := underway_self taker ht hindexed hk₂
  have honce := finalize_of_accepting (f := f.watchedBy taker) (Watched.accepting haccepting) ht hopen hk₂
  exact ⟨hself.finalize haccepting.steady hK (ForkTree.descends_refl _ k₂), (hself.of_ok hk₂ honce).2.1⟩

/-- A stop on the way changes nothing in the end, and the counts add up. -/
theorem pieces_on_the_way (hk₁ : f.tree.Descends k₂ k₁) :
    Same (Frontier.play [.finalize k₁, .finalize k₂] (f.watchedBy taker))
        (Frontier.play [.finalize k₂] (f.watchedBy taker)) ∧
      ∃ m n, (Frontier.finalize k₁).outcome (f.watchedBy taker) = .ok m ∧
        (Frontier.finalize k₂).outcome (Frontier.play [.finalize k₁] (f.watchedBy taker)) = .ok n ∧
        (Frontier.finalize k₂).outcome (f.watchedBy taker) = .ok (m + n) := by
  have htaker := Watched.accepting haccepting
  have hk₁Mem := ht.mem_of_descends_node hk₂ hk₁
  have honce : (Frontier.finalize k₂).outcome (f.watchedBy taker) = _ :=
    finalize_of_accepting htaker ht hopen hk₂
  have hfirst : (Frontier.finalize k₁).outcome (f.watchedBy taker) = _ :=
    finalize_of_accepting htaker ht hopen hk₁Mem
  obtain ⟨-, hanchor, hopen'⟩ := (underway_self taker ht hindexed hk₁Mem).of_ok hk₁Mem hfirst
  have hmid := (underway_self taker ht hindexed hk₂).finalize haccepting.steady hK hk₁
  have hsecond := finalize_of_accepting htaker hmid.accounts.tree hopen'
    (hmid.accounts.part.mem_iff.2 ⟨hk₂, hmid.ahead⟩)
  have hend := hmid.finalize haccepting.steady hK (ForkTree.descends_refl _ k₂)
  obtain ⟨hatOnce, hanchorOnce⟩ := underway_at_once ht hindexed hK hopen hk₂ haccepting taker
  refine ⟨hend.same hatOnce ((hmid.of_ok hk₂ hsecond).2.1.trans hanchorOnce.symm), ?_⟩
  refine ⟨_, _, hfirst, hsecond, honce.trans (congrArg Except.ok ?_)⟩
  rw [hanchor]
  have hle := ht.anchor_slot_le hk₁Mem
  have hle' := ht.slot_le_of_descends hk₂ hk₁
  show k₂.slot.toNat - f.tree.anchor.slot.toNat =
    k₁.slot.toNat - f.tree.anchor.slot.toNat + (k₂.slot.toNat - k₁.slot.toNat)
  omega

/-- Neither do attempts of which the sink takes a part. -/
theorem pieces_over_attempts {β : Type} [Sink β] (hsteady : Sink.Steady β) (picker : β) (tries : Nat) {n : Nat}
    (hok : (Frontier.finalize k₂).outcome
      (Frontier.play (List.replicate tries (.finalize k₂)) (f.watchedBy picker)) = .ok n) :
    Same (Frontier.play (List.replicate (tries + 1) (.finalize k₂)) (f.watchedBy picker))
      (Frontier.play [.finalize k₂] (f.watchedBy taker)) := by
  have hmid := (underway_self picker ht hindexed hk₂).play hsteady hK tries
  have hend := hmid.finalize hsteady hK (ForkTree.descends_refl _ k₂)
  obtain ⟨hatOnce, hanchorOnce⟩ := underway_at_once ht hindexed hK hopen hk₂ haccepting taker
  rw [List.replicate_succ', play_append]
  exact hend.same hatOnce ((hmid.of_ok hk₂ hok).2.1.trans hanchorOnce.symm)

end

/-- After any run of calls, let `k₂` be a node after the anchor.  With a sink that takes everything, to
finalize a position on the way to `k₂` and then `k₂` leaves the tree and tells the sink what to finalize
`k₂` at once does, and the counts add up; so does to finalize `k₂` again and again, with a sink that
takes what it likes, until it succeeds. -/
theorem pieces_of_run (spec : Spec) (sink : σ) {anchor : Snapshot} {specs : Spec → Prop}
    (hanchor : anchor.state.Reached specs) (calls : List Call) (k₂ : Position)
    (hK : CollisionFree (hashed (calls ++ [.finalize k₂]) (plant anchor sink spec)))
    (hk₂ : k₂ ∈ (play calls (plant anchor sink spec)).tree.nodes)
    {α : Type} [Sink α] (haccepting : Sink.Accepting α) (taker : α) :
    (∀ k₁, (play calls (plant anchor sink spec)).tree.Descends k₂ k₁ →
      Same (play [.finalize k₁, .finalize k₂] ((play calls (plant anchor sink spec)).watchedBy taker))
          (play [.finalize k₂] ((play calls (plant anchor sink spec)).watchedBy taker)) ∧
        ((play calls (plant anchor sink spec)).poisoned = false →
          ∃ m n,
            (finalize k₁).outcome ((play calls (plant anchor sink spec)).watchedBy taker) = .ok m ∧
            (finalize k₂).outcome
              (play [.finalize k₁] ((play calls (plant anchor sink spec)).watchedBy taker)) = .ok n ∧
            (finalize k₂).outcome ((play calls (plant anchor sink spec)).watchedBy taker) =
              .ok (m + n))) ∧
      ∀ {β : Type} [Sink β], Sink.Steady β → ∀ (picker : β) (tries n : Nat),
        (finalize k₂).outcome (play (List.replicate tries (.finalize k₂))
          ((play calls (plant anchor sink spec)).watchedBy picker)) = .ok n →
        Same (play (List.replicate (tries + 1) (.finalize k₂))
            ((play calls (plant anchor sink spec)).watchedBy picker))
          (play [.finalize k₂] ((play calls (plant anchor sink spec)).watchedBy taker)) := by
  generalize hf : play calls (plant anchor sink spec) = f at hk₂ ⊢
  have htree := ForkTree.sound_plant spec hanchor.aged
  rw [hashed_append, hf] at hK
  have ht : f.tree.Sound := hf ▸ sound_play calls htree hK.left
  have hindexed : f.tree.Indexed :=
    hf ▸ indexed_play calls htree hK.left (ForkTree.indexed_plant spec anchor)
  cases hopen : f.poisoned with
  | true =>
    -- A closed frontier does nothing, and no call on it succeeds.
    have hclosed {τ : Type} (sink : τ) : (f.watchedBy sink).poisoned = true := hopen
    refine ⟨fun k₁ _ => ⟨?_, fun hfalse => (by cases hfalse)⟩, ?_⟩
    · rw [play_of_poisoned _ (hclosed taker), play_of_poisoned _ (hclosed taker)]
      exact ⟨rfl, rfl, List.Perm.refl _⟩
    · intro β _ _ picker tries n hok
      rw [play_of_poisoned _ (hclosed picker)] at hok
      have hopened := ((underway_self picker ht hindexed hk₂).of_ok hk₂ hok).1
      exact absurd (hopen.symm.trans hopened) (by decide)
  | false =>
    have hKtree : CollisionFree f.tree.hashed := by
      refine hK.right.left.mono fun x hx => ?_
      rw [Call.hashed_of_open _ hopen]
      exact List.mem_append_left _ (List.mem_append_right _ hx)
    refine ⟨fun k₁ hk₁ => ?_, fun {β} _ hsteady picker tries n => ?_⟩
    · obtain ⟨hsame, hcounts⟩ :=
        pieces_on_the_way ht hindexed hKtree hopen hk₂ haccepting taker hk₁
      exact ⟨hsame, fun _ => hcounts⟩
    · exact pieces_over_attempts ht hindexed hKtree hopen hk₂ haccepting taker hsteady picker tries

-- On the way to the tip lies the block before it.  A sink that takes that block first and then rejects
-- the tip twice takes it at the third attempt.
theorem pieces_of_run_tiny :
    CollisionFree (hashed (tinyFork ++ [.finalize tinyTip]) (plant tinyAnchor tinyPicker tinySpec)) ∧
      (play tinyFork (plant tinyAnchor tinyPicker tinySpec)).tree.Descends tinyTip tinyFirst ∧
      Same (play [.finalize tinyFirst, .finalize tinyTip]
          ((play tinyFork (plant tinyAnchor tinyPicker tinySpec)).watchedBy ()))
        (play [.finalize tinyTip] ((play tinyFork (plant tinyAnchor tinyPicker tinySpec)).watchedBy ())) ∧
      (finalize tinyTip).outcome (play (List.replicate 2 (.finalize tinyTip))
        ((play tinyFork (plant tinyAnchor tinyPicker tinySpec)).watchedBy
          (Picker.mk [true, false, false]))) = .ok 1 ∧
      Same (play (List.replicate 3 (.finalize tinyTip))
          ((play tinyFork (plant tinyAnchor tinyPicker tinySpec)).watchedBy (Picker.mk [true, false, false])))
        (play [.finalize tinyTip] ((play tinyFork (plant tinyAnchor tinyPicker tinySpec)).watchedBy ())) := by
  have haccepting : Sink.Accepting Unit := fun _ sink => ⟨sink, rfl⟩
  obtain ⟨hK, -, -, hclimb, -, -, -, hretried⟩ := evaluated_fork
  have hdescends : (play tinyFork (plant tinyAnchor tinyPicker tinySpec)).tree.Descends tinyTip tinyFirst :=
    ⟨1, hclimb⟩
  have hthird : (finalize tinyTip).outcome (play (List.replicate 2 (.finalize tinyTip))
      ((play tinyFork (plant tinyAnchor tinyPicker tinySpec)).watchedBy
        (Picker.mk [true, false, false]))) = .ok 1 := by
    rw [(erases_finalize tinyTip).outcome, unwatched_play, unwatched_watchedBy]
    exact Outcome.eq_ok_of_toOption hretried
  obtain ⟨hway, hattempts⟩ :=
    pieces_of_run tinySpec tinyPicker reached_tiny tinyFork tinyTip hK tinyTip_mem haccepting ()
  exact ⟨hK, hdescends, (hway tinyFirst hdescends).1, hthird, hattempts Picker.steady _ 2 1 hthird⟩

end BeaconHistory.Frontier
