import BeaconHistory.Proofs.Frontier.Replayed
import BeaconHistory.Proofs.History.Contents
import BeaconHistory.Proofs.Ledger.Filing

/-!
# History.Traced — an entry is known by the root of its state

The frontier indexes its nodes by the roots of their states and the ledger its records, each on its own.
Main statement: in any run of calls, whatever the archive refuses, every node and every record stands for a
state that was hashed in the run, so a state root is found at one entry of one region.
-/

namespace BeaconHistory.History

variable {τ : Type} {taken : Block → Prop} {first : Summary} {h : History τ} {K : List (List UInt8)}
  {e e' : Entry}

/-- What is hashed for the nodes and the records is among some strings, and both indexes are right. -/
structure Traced (K : List (List UInt8)) (h : History τ) : Prop where
  known : ∀ x ∈ h.frontier.tree.hashed, x ∈ K
  indexed : h.frontier.tree.Indexed
  ledger : h.ledger.Traces fun s => ∀ x ∈ s.hashed, x ∈ K

theorem Traced.exists_state (ht : h.Traced K) (he : h.Holds e) :
    ∃ state, e.summary = .ofState state ∧ ∀ x ∈ state.hashed, x ∈ K := by
  cases he with
  | @node x hx =>
    obtain ⟨p, node, hnode, -, rfl⟩ := hx
    exact ⟨_, node.entry.summary_eq, fun x hx => ht.known x (ForkTree.mem_hashed_of_node hnode hx)⟩
  | filed hs => exact ht.ledger.recorded _ hs

theorem Traced.holds_pinned (hK : CollisionFree K) (hs : h.Sound taken first) (ht : h.Traced K)
    (he : h.Holds e) (he' : h.Holds e') (hroot : e.summary.stateRoot = e'.summary.stateRoot) : e = e' := by
  obtain ⟨s, heq, hknown⟩ := ht.exists_state he
  obtain ⟨s', heq', hknown'⟩ := ht.exists_state he'
  rw [heq, heq'] at hroot
  have hstate : s = s' := hK.state_eq hknown hknown' hroot
  exact hs.holds_unique he he' (congrArg Summary.position (by rw [heq, heq', hstate]))

variable [Archive τ]

theorem Traced.byStateRoot_eq_ok_iff (hK : CollisionFree K) (hs : h.Sound taken first) (ht : h.Traced K)
    {root : Root} : Chain.byStateRoot h root = .ok e ↔ h.Holds e ∧ e.summary.stateRoot = root :=
  hs.byStateRoot_eq_ok_iff ht.indexed ht.ledger.indexed
    fun _ _ he he' hroot => ht.holds_pinned hK hs he he' hroot

/-! ## Runs -/

-- The first call hashes what the history starts with.
theorem mem_hashed_of_start {anchor : Snapshot} {spec : Spec} {archive : τ}
    (hstart : start anchor spec archive = .ok h) (c : Call) (calls : List Call) :
    ∀ x ∈ anchor.state.hashed, x ∈ hashed (c :: calls) h := by
  obtain ⟨-, archive', -, rfl⟩ := start_eq_ok_iff.1 hstart
  intro x hx
  rw [hashed_cons, Frontier.Call.hashed_of_open _ rfl]
  have hnode : (ForkTree.plant spec anchor).nodes[anchor.position]? = some ⟨anchor, none⟩ :=
    ForkTree.nodes_plant_iff.2 ⟨rfl, rfl⟩
  have hmem := ForkTree.mem_hashed_of_node hnode hx
  exact List.mem_append_left _ (List.mem_append_left _ (List.mem_append_right _ hmem))

theorem traced_start (hK : CollisionFree K) {anchor : Snapshot} {spec : Spec} {archive : τ}
    (hstart : start anchor spec archive = .ok h) (hknown : ∀ x ∈ anchor.state.hashed, x ∈ K) :
    h.Traced K := by
  obtain ⟨-, archive', -, rfl⟩ := start_eq_ok_iff.1 hstart
  refine ⟨fun x hx => ?_, ForkTree.indexed_plant spec anchor, ?_⟩
  · obtain ⟨⟨p, node⟩, hitem, hx⟩ := List.mem_flatMap.1 hx
    obtain ⟨-, rfl⟩ := ForkTree.nodes_plant_iff.1 (Std.ExtTreeMap.mem_toList_iff_getElem?_eq_some.1 hitem)
    exact hknown x hx
  · show (firstLedger anchor spec archive').Traces _
    unfold firstLedger
    rw [anchor.summary_eq]
    have hempty : Ledger.Traces (fun s => ∀ x ∈ s.hashed, x ∈ K)
        { Ledger.empty (Summary.ofState anchor.state).slot spec archive with archive := archive' } :=
      ⟨fun s hs => (by cases hs), fun root slot => by simp [Ledger.empty]⟩
    exact hempty.append (fun _ _ ha hb hroot => hK.state_eq ha hb hroot) hknown

theorem Traced.move (hsteady : Archive.Steady τ) (hK : CollisionFree K) (hs : h.Sound taken first)
    (ht : h.Traced K) {u : ForkTree} {g : Frontier (Ledger τ)}
    (hmove : Frontier.Move taken h.frontier u g) (hknown : ∀ x ∈ u.hashed, x ∈ K) :
    (⟨g⟩ : History τ).Traced K := by
  have hopen := hmove.opened (Ledger.sink_steady hsteady) hs.spec hs.opened
  refine ⟨fun x hx => hknown x (hmove.hashed hs.tree x hx), hmove.indexed hs.tree ht.indexed hK hknown, ?_⟩
  show g.sink.Traces _
  cases hmove with
  | grow _ _ hsink => exact hsink ▸ ht.ledger
  | settle _ hpath _ hsink =>
    rw [hsink, Ledger.pruneAll_eq]
    refine ht.ledger.handed (fun _ _ ha hb hroot => hK.state_eq ha hb hroot) fun entry hentry => ?_
    -- What is handed over are entries of the tree.
    obtain ⟨p, node, -, hnode, -, rfl⟩ := hpath.exists_node hentry
    exact fun x hx => hknown x (ForkTree.mem_hashed_of_node hnode hx)
  | broke _ _ hpoisoned =>
    rw [hopen] at hpoisoned
    cases hpoisoned

theorem traced_of_start (hsteady : Archive.Steady τ) {anchor : Snapshot} {specs : Spec → Prop}
    (hanchor : anchor.state.Reached specs) {spec : Spec} {archive : τ}
    (hstart : start anchor spec archive = .ok h) (calls : List Call)
    (hK : CollisionFree (anchor.state.hashed ++ hashed calls h)) :
    (play calls h).Traced (anchor.state.hashed ++ hashed calls h) :=
  keeps_play hK (fun hs ht hmove hknown => ht.move hsteady hK hs hmove hknown) hsteady calls
    (fun _ => List.mem_append_right _) (fun _ => id)
    (sound_start hanchor hstart (· ∈ accepted calls h))
    (traced_start hK hstart fun _ => List.mem_append_left _)

end BeaconHistory.History
