import BeaconHistory.Proofs.Entry
import BeaconHistory.Proofs.History.Traced

/-!
# History.Faithful — every state is that of its branch

The states of a history are made in the frontier, filed when they are finalized, and fetched when they
are asked for.  Main statement: in any run of calls, refused writes included, every entry that a history
holds is read, then and later, of one state, and that state is replayed from the first anchor.
-/

namespace BeaconHistory

/-- `s` is replayed from `origin`, and what is hashed for it is among `strings`. -/
structure Genuine (taken : Block → Prop) (spec : Spec) (origin : State) (strings : List (List UInt8))
    (s : State) : Prop where
  replayed : ∃ blocks, Replays taken spec origin blocks s
  known : ∀ x ∈ s.hashed, x ∈ strings

section

variable {taken : Block → Prop} {spec : Spec} {origin s s' : State} {K : List (List UInt8)}

theorem Genuine.eq_of_root (hK : CollisionFree K) (h : Genuine taken spec origin K s)
    (h' : Genuine taken spec origin K s') (hroot : s.root = s'.root) : s = s' :=
  hK.state_eq h.known h'.known hroot

theorem ForkTree.Replayed.genuine {t : ForkTree} (h : t.Replayed taken origin)
    (hknown : ∀ x ∈ t.hashed, x ∈ K) {p : Position} {node : ForkTree.Node}
    (hnode : t.nodes[p]? = some node) : Genuine taken t.spec origin K node.entry.state :=
  ⟨(h p node hnode).2, fun x hx => hknown x (ForkTree.mem_hashed_of_node hnode hx)⟩

end

namespace History

open Archive (Tables)

variable {τ : Type} {tables : τ → Tables} {taken : Block → Prop} {spec : Spec} {origin : State}
  {K : List (List UInt8)} {first : Summary} {h h' : History τ} {e e' : Entry}

/-! ## 1. The invariant -/

/-- The states of both regions are replayed from `origin`, and those of the records are on file. -/
structure Faithful (tables : τ → Tables) (taken : Block → Prop) (spec : Spec) (origin : State)
    (K : List (List UInt8)) (h : History τ) : Prop where
  constants : h.frontier.tree.spec = spec
  replayed : h.frontier.tree.Replayed taken origin
  known : ∀ x ∈ h.frontier.tree.hashed, x ∈ K
  indexed : h.frontier.tree.Indexed
  ledger : h.ledger.OnFile tables spec (Genuine taken spec origin K)

theorem Faithful.genuine_node (hf : h.Faithful tables taken spec origin K) {p : Position}
    {node : ForkTree.Node} (hnode : h.frontier.tree.nodes[p]? = some node) :
    Genuine taken spec origin K node.entry.state := by
  rw [← hf.constants]
  exact hf.replayed.genuine hf.known hnode

theorem Faithful.traced (hf : h.Faithful tables taken spec origin K) : h.Traced K :=
  ⟨hf.known, hf.indexed, hf.ledger.traces.mono fun _ hs => hs.known⟩

variable [Archive τ]

theorem eq_of_start {anchor : Snapshot} {archive : τ} (hstart : start anchor spec archive = .ok h) :
    h = ⟨.plant anchor ((Ledger.ingest anchor).after (.empty anchor.summary.slot spec archive)) spec⟩ := by
  unfold start at hstart
  obtain ⟨_, -, hstart⟩ := Outcome.bind_eq_ok_iff.1 hstart
  obtain ⟨ledger, hledger, hstart⟩ := Outcome.bind_eq_ok_iff.1 hstart
  rw [Outcome.mapReason_eq_ok_iff] at hledger
  unfold Operation.reach at hledger
  unfold Operation.after
  split at hledger
  · next hingest =>
    cases hledger
    cases hstart
    rw [hingest]
  · cases hledger

theorem faithful_start (hmemory : Archive.InMemory tables) (hK : CollisionFree K) (taken : Block → Prop)
    {anchor : Snapshot} {archive : τ} (hempty : tables archive = .empty)
    (hstart : start anchor anchor.spec archive = .ok h) (hknown : ∀ x ∈ anchor.state.hashed, x ∈ K) :
    h.Faithful tables taken anchor.spec anchor.state K := by
  have horigin : Genuine taken anchor.spec anchor.state K anchor.state :=
    ⟨⟨[], .start taken anchor.spec anchor.state⟩, hknown⟩
  have hledger :=
    Ledger.OnFile.empty anchor.summary.slot anchor.spec (Genuine taken anchor.spec anchor.state K) hempty
  have htraced := traced_start hK hstart hknown
  rw [eq_of_start hstart] at htraced ⊢
  exact ⟨rfl, ForkTree.replayed_plant taken anchor, htraced.known, htraced.indexed,
    hledger.ingested hmemory (fun _ _ ha hb => ha.eq_of_root hK hb) horigin⟩

/-! ## 2. Runs -/

theorem Faithful.move (hmemory : Archive.InMemory tables) (hK : CollisionFree K)
    (hs : h.Sound taken first) (hf : h.Faithful tables taken spec origin K) {u : ForkTree}
    {g : Frontier (Ledger τ)} (hmove : Frontier.Move taken h.frontier u g)
    (hknown : ∀ x ∈ u.hashed, x ∈ K) : (⟨g⟩ : History τ).Faithful tables taken spec origin K := by
  have hopen := hmove.opened (Ledger.sink_steady hmemory.steady) hs.spec hs.opened
  have htraced := hf.traced.move hmemory.steady hK hs hmove hknown
  refine ⟨hmove.spec.trans hf.constants, hmove.replayed hs.tree hf.replayed, htraced.known,
    htraced.indexed, ?_⟩
  show g.sink.OnFile tables spec _
  cases hmove with
  | grow _ _ hsink => exact hsink ▸ hf.ledger
  | settle hgrown hpath _ hsink =>
    rw [hsink, Ledger.pruneAll_eq]
    refine hf.ledger.handed hmemory (fun _ _ ha hb => ha.eq_of_root hK hb) fun entry hentry => ?_
    -- What is handed over are entries of the tree.
    obtain ⟨p, node, -, hnode, -, rfl⟩ := hpath.exists_node hentry
    have hsteps := hgrown.steps taken
    have hgenuine := (hsteps.replayed hs.tree hf.replayed).genuine hknown hnode
    rw [hsteps.spec, hf.constants] at hgenuine
    exact hgenuine
  | broke _ _ hpoisoned =>
    rw [hopen] at hpoisoned
    cases hpoisoned

theorem Call.faithful (c : Call) (hmemory : Archive.InMemory tables) (hK : CollisionFree K)
    (hknown : ∀ x ∈ c.toHot.hashed h.frontier, x ∈ K) (htaken : ∀ b ∈ c.toHot.accepted h.frontier, taken b)
    (hs : h.Sound taken first) (hf : h.Faithful tables taken spec origin K) :
    (c.after h).Faithful tables taken spec origin K :=
  c.keeps hK (fun hs hf hmove hknown => hf.move hmemory hK hs hmove hknown) hknown htaken hs hf

theorem Faithful.play (hmemory : Archive.InMemory tables) (hK : CollisionFree K) (calls : List Call)
    (hknown : ∀ x ∈ hashed calls h, x ∈ K) (htaken : ∀ b ∈ accepted calls h, taken b)
    (hs : h.Sound taken first) (hf : h.Faithful tables taken spec origin K) :
    (play calls h).Faithful tables taken spec origin K :=
  keeps_play hK (fun hs hf hmove hknown => hf.move hmemory hK hs hmove hknown) hmemory.steady calls
    hknown htaken hs hf

/-- Both at a moment of a run and at its end the states are replayed from the first anchor by blocks of
the run, and the records of the moment are still there at the end. -/
theorem faithful_of_start (hmemory : Archive.InMemory tables) {anchor : Snapshot}
    {specs : Spec → Prop} (hanchor : anchor.state.Reached specs) {archive : τ}
    (hempty : tables archive = .empty) (hstart : start anchor anchor.spec archive = .ok h)
    (calls later : List Call)
    (hK : CollisionFree (anchor.state.hashed ++ hashed (calls ++ later) h)) :
    let taken := (· ∈ accepted (calls ++ later) h)
    let strings := anchor.state.hashed ++ hashed (calls ++ later) h
    (play calls h).Faithful tables taken anchor.spec anchor.state strings ∧
      (play (calls ++ later) h).Faithful tables taken anchor.spec anchor.state strings ∧
      (play calls h).ledger.records.toList <+: (play (calls ++ later) h).ledger.records.toList := by
  intro taken strings
  have hknown : ∀ x ∈ hashed (calls ++ later) h, x ∈ strings := fun x => List.mem_append_right _
  have htaken : ∀ b ∈ accepted (calls ++ later) h, taken b := fun b => id
  rw [hashed_append] at hknown
  rw [accepted_append] at htaken
  obtain ⟨hcalls, hlater⟩ := List.forall_mem_append.1 hknown
  obtain ⟨htakenCalls, htakenLater⟩ := List.forall_mem_append.1 htaken
  have hs := sound_start hanchor hstart taken
  have hf := faithful_start hmemory hK taken hempty hstart fun x => List.mem_append_left _
  have hsCalls := (hs.play hmemory.steady calls (hK.mono hcalls) htakenCalls).1
  have hfCalls := hf.play hmemory hK calls hcalls htakenCalls hs
  rw [play_append]
  exact ⟨hfCalls, hfCalls.play hmemory hK later hlater htakenLater hsCalls,
    (hsCalls.play hmemory.steady later (hK.mono hlater) htakenLater).2⟩

/-! ## 3. What is read -/

/-- An entry that a history holds is read of one state, also from the files of a later history. -/
theorem Faithful.exists_reads (hmemory : Archive.InMemory tables)
    (hf : h.Faithful tables taken spec origin K) (hf' : h'.Faithful tables taken spec origin K)
    (hrecords : ∀ s ∈ h.ledger.records.toList, s ∈ h'.ledger.records.toList) (he : h.Holds e) :
    ∃ state, Genuine taken spec origin K state ∧ e.summary = .ofState state ∧ e.spec = spec ∧
      e.Reads (Chain.files h') state := by
  cases he with
  | @node x hx =>
    obtain ⟨p, node, hnode, -, rfl⟩ := hx
    have hspec := (hf.replayed p node hnode).1.trans hf.constants
    exact ⟨_, hf.genuine_node hnode, node.entry.summary_eq, hspec, Entry.reads_node _ _⟩
  | @filed s hs =>
    obtain ⟨state, hget, heq, hgenuine⟩ := hf'.ledger.get_eq hmemory (hrecords s hs)
    exact ⟨state, hgenuine, heq, hf.ledger.spec, Entry.reads_filed h.ledger.spec hget⟩

/-- Entries with one summary have the same content, whichever of two moments holds them. -/
theorem Faithful.sameContent (hmemory : Archive.InMemory tables) (hK : CollisionFree K)
    (hf : h.Faithful tables taken spec origin K) (hf' : h'.Faithful tables taken spec origin K)
    (he : h.Holds e) (he' : h'.Holds e') (hsummary : e'.summary = e.summary) :
    Entry.SameContent (Chain.files h) e (Chain.files h') e' := by
  obtain ⟨s, hgenuine, heq, hspec, hreads⟩ := hf.exists_reads hmemory hf (fun _ => id) he
  obtain ⟨s', hgenuine', heq', hspec', hreads'⟩ := hf'.exists_reads hmemory hf' (fun _ => id) he'
  have hroot : s.root = s'.root := congrArg Summary.stateRoot (heq.symm.trans (hsummary.symm.trans heq'))
  have hstate : s = s' := hgenuine.eq_of_root hK hgenuine' hroot
  exact ⟨hsummary, hspec'.trans hspec.symm, s, hreads, hstate ▸ hreads'⟩

end History

end BeaconHistory
