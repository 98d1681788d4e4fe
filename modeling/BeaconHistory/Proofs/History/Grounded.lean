import BeaconHistory.Proofs.Frontier.Derived
import BeaconHistory.Proofs.History.Faithful

/-!
# History.Grounded — two entries of a block are slots apart

The entries that carry one block are spread over the records and the tree, and most of their states are
nowhere computed from each other any more.  But each is replayed from the first anchor, and by the same
blocks, since linked blocks are known by the last of them.  Main statement: in any run of calls, the state
of an entry of a block is that of any earlier entry of the block, advanced to its slot.
-/

namespace BeaconHistory

variable {taken : Block → Prop} {spec : Spec} {first : Root} {origin s t : State} {e : Snapshot}
  {blocks blocks' : List Block} {K : List (List UInt8)}

/-! ## 1. One block determines all before it -/

theorem Leads.of_concat {b : Block} {last : Root} (h : Leads taken first (blocks ++ [b]) last) :
    taken b ∧ b.root = last ∧ Leads taken first blocks b.parentRoot := by
  have hlinked := h.linked
  rw [List.map_append, List.map_append, List.map_singleton, List.map_singleton, ← List.cons_append]
    at hlinked
  obtain ⟨hbefore, hlast⟩ := List.append_inj' hlinked rfl
  refine ⟨h.taken b (by simp), (List.singleton_inj.1 hlast).symm, fun b' hb' => ?_, hbefore, ?_⟩
  · exact h.taken b' (List.mem_append_left _ hb')
  · exact (List.pairwise_append.1 h.ordered).1

theorem Leads.of_nil {last : Root} (h : Leads taken first [] last) : last = first :=
  List.singleton_inj.1 h.linked

/-- Linked blocks that end in one block are the same. -/
theorem Leads.unique (hd : Distinct taken first) {last : Root} (h : Leads taken first blocks last)
    (h' : Leads taken first blocks' last) : blocks = blocks' := by
  induction blocks using List.reverseRecOn generalizing blocks' last with
  | nil =>
    cases blocks' using List.reverseRecOn with
    | nil => rfl
    | append_singleton blocks' b =>
      obtain ⟨hb, hroot, -⟩ := h'.of_concat
      exact absurd (hroot.trans h.of_nil) (hd.foreign b hb)
  | append_singleton blocks b ih =>
    obtain ⟨hb, hroot, hbefore⟩ := h.of_concat
    cases blocks' using List.reverseRecOn with
    | nil => exact absurd (hroot.trans h'.of_nil) (hd.foreign b hb)
    | append_singleton blocks' b' =>
      obtain ⟨hb', hroot', hbefore'⟩ := h'.of_concat
      obtain rfl : b = b' := hd.unique b b' hb hb' (hroot.trans hroot'.symm)
      rw [ih hbefore hbefore']

/-- Of two replayed states with one latest block, the later one is the earlier one advanced. -/
theorem Replays.atSlot_eq (hd : Distinct taken origin.latestBlockRoot)
    (h : Replays taken spec origin blocks s) (h' : Replays taken spec origin blocks' t)
    (hroot : s.latestBlockRoot = t.latestBlockRoot) (hslot : s.slot ≤ t.slot) :
    s.atSlot spec t.slot = .ok t := by
  obtain ⟨after, hafter, hs⟩ := h.replayed
  obtain ⟨after', hafter', ht⟩ := h'.replayed
  have hleads := h'.leads
  rw [← hroot] at hleads
  obtain rfl : blocks = blocks' := h.leads.unique hd hleads
  cases hafter.symm.trans hafter'
  rcases State.atSlot_eq_ok_iff.1 hs with hadvanced | ⟨-, rfl⟩
  · have hle := UInt64.le_of_lt (State.advanced_eq_ok_iff.1 hadvanced).1
    rw [State.atSlot_trans hle hslot, hs] at ht
    exact ht
  · exact ht

namespace Genuine

-- A genuine state keeps its latest block through empty slots.
theorem sealable (hK : CollisionFree K) (hs : Genuine taken spec origin K s) : s.Sealable :=
  State.sealable_of_root (hK.root_ne_zero hs.known)

/-- Two genuine states of one block are slots apart. -/
theorem atSlot_eq (hd : Distinct taken origin.latestBlockRoot) (hs : Genuine taken spec origin K s)
    (ht : Genuine taken spec origin K t) (hroot : s.latestBlockRoot = t.latestBlockRoot)
    (hslot : s.slot ≤ t.slot) : s.atSlot spec t.slot = .ok t := by
  obtain ⟨_, hreplays⟩ := hs.replayed
  obtain ⟨_, hreplays'⟩ := ht.replayed
  exact hreplays.atSlot_eq hd hreplays' hroot hslot

end Genuine

/-! ## 2. From the anchor over the tree -/

theorem Next.replays (h : Next taken spec s e) (hreplays : Replays taken spec origin blocks s)
    (hs : s.Sealable) : ∃ blocks, Replays taken spec origin blocks e.state := by
  cases h with
  | empty _ hstate => exact ⟨blocks, hreplays.advance hstate (hs.advanced hstate).2⟩
  | @block b hb _ _ hstate =>
    obtain ⟨pre, hpre, hheader, hroot⟩ := Transition.reach_applyBlock_eq_ok_iff.1 hstate
    obtain ⟨hslot, -⟩ := State.eq_of_withHeader hheader
    have hprePlays : Replays taken spec origin blocks pre := by
      rcases State.atSlot_eq_ok_iff.1 hpre with hadvanced | ⟨-, rfl⟩
      · exact hreplays.advance hadvanced (hs.advanced hadvanced).2
      · exact hreplays
    refine ⟨_, hprePlays.apply hb hslot.symm (Transition.reach_applyBlock_eq_ok_iff.2 ⟨pre, ?_, hheader, hroot⟩)⟩
    exact State.atSlot_eq_ok_iff.2 (Or.inr ⟨UInt64.le_of_eq hslot, rfl⟩)

namespace ForkTree

variable {t : ForkTree} {anchor : Snapshot}

/-- If the anchor is replayed from `origin`, so is every node. -/
theorem Sound.exists_replays (ht : t.Sound) (hderived : t.Derived taken) (hK : CollisionFree K)
    (hknown : ∀ x ∈ t.hashed, x ∈ K) (hanchor : t.nodes[t.anchor]? = some ⟨anchor, none⟩)
    (hreplays : ∃ blocks, Replays taken t.spec origin blocks anchor.state) {p : Position} {node : Node}
    (hnode : t.nodes[p]? = some node) :
    ∃ blocks, Replays taken t.spec origin blocks node.entry.state := by
  -- Induction on the slot, which is one less for the parent.
  generalize hn : p.slot.toNat = n
  induction n using Nat.strongRecOn generalizing p node with
  | ind n ih =>
    by_cases hne : p = t.anchor
    · rw [hne, hanchor] at hnode
      cases hnode
      exact hreplays
    · obtain ⟨-, q, before, hparent, hbefore, hnext⟩ := hderived p node hnode hne
      have hslot := (ht.follows hnode hparent).slot
      obtain ⟨blocks, hblocks⟩ := ih q.slot.toNat (by omega) hbefore rfl
      have hroot := hK.root_ne_zero fun x hx => hknown x (mem_hashed_of_node hbefore hx)
      exact hnext.replays hblocks (State.sealable_of_root hroot)

end ForkTree

namespace History

open Archive (Tables)

variable {τ : Type} {tables : τ → Tables} {first : Summary} {h : History τ} {e e' : Entry}

/-! ## 3. The invariant -/

/-- Nodes are computed from their parents, and the anchor and the records are replayed from `origin`. -/
structure Grounded (tables : τ → Tables) (taken : Block → Prop) (spec : Spec) (origin : State)
    (K : List (List UInt8)) (h : History τ) : Prop where
  constants : h.frontier.tree.spec = spec
  derived : h.frontier.tree.Derived taken
  known : ∀ x ∈ h.frontier.tree.hashed, x ∈ K
  anchor : ∀ entry : Snapshot, h.frontier.tree.nodes[h.frontier.tree.anchor]? = some ⟨entry, none⟩ →
    ∃ blocks, Replays taken spec origin blocks entry.state
  ledger : h.ledger.OnFile tables spec (Genuine taken spec origin K)

-- What the tree grows to is made of genuine states.
theorem Grounded.genuine_grown (hK : CollisionFree K) (hs : h.Sound taken first)
    (hg : h.Grounded tables taken spec origin K) {u : ForkTree}
    (hsteps : ForkTree.Steps taken h.frontier.tree u) (hknown : ∀ x ∈ u.hashed, x ∈ K) {p : Position}
    {node : ForkTree.Node} (hnode : u.nodes[p]? = some node) :
    Genuine taken spec origin K node.entry.state := by
  obtain ⟨entry, hentry⟩ := hs.tree.anchor_node
  have hanchor : u.nodes[u.anchor]? = some ⟨entry, none⟩ := by
    rw [hsteps.anchor]
    exact hsteps.nodes hs.tree hentry
  have hspec : u.spec = spec := hsteps.spec.trans hg.constants
  have hreplays := hg.anchor entry hentry
  rw [← hspec] at hreplays
  have hnodeReplays := (hsteps.sound hs.tree).exists_replays (hsteps.derived hs.tree hg.derived) hK hknown
    hanchor hreplays hnode
  rw [hspec] at hnodeReplays
  exact ⟨hnodeReplays, fun x hx => hknown x (ForkTree.mem_hashed_of_node hnode hx)⟩

variable [Archive τ]

theorem grounded_start (hmemory : Archive.InMemory tables) (hK : CollisionFree K) (taken : Block → Prop)
    {anchor : Snapshot} {archive : τ} (hempty : tables archive = .empty)
    (hstart : start anchor spec archive = .ok h) (hknown : ∀ x ∈ anchor.state.hashed, x ∈ K) :
    h.Grounded tables taken spec anchor.state K := by
  have horigin : Genuine taken spec anchor.state K anchor.state :=
    ⟨⟨[], .start taken spec anchor.state⟩, hknown⟩
  have hledger := Ledger.OnFile.empty anchor.summary.slot spec (Genuine taken spec anchor.state K) hempty
  have htraced := traced_start hK hstart hknown
  rw [eq_of_start hstart] at htraced ⊢
  refine ⟨rfl, ForkTree.derived_plant taken spec anchor, htraced.known, fun entry hentry => ?_,
    hledger.ingested hmemory (fun _ _ ha hb => ha.eq_of_root hK hb) horigin⟩
  obtain ⟨-, heq⟩ := ForkTree.nodes_plant_iff.1 hentry
  cases heq
  exact horigin.replayed

theorem Grounded.move (hmemory : Archive.InMemory tables) (hK : CollisionFree K)
    (hs : h.Sound taken first) (hg : h.Grounded tables taken spec origin K) {u : ForkTree}
    {g : Frontier (Ledger τ)} (hmove : Frontier.Move taken h.frontier u g)
    (hknown : ∀ x ∈ u.hashed, x ∈ K) : (⟨g⟩ : History τ).Grounded tables taken spec origin K := by
  have hopen := hmove.opened (Ledger.sink_steady hmemory.steady) hs.spec hs.opened
  have hknownAfter : ∀ x ∈ g.tree.hashed, x ∈ K := fun x hx => hknown x (hmove.hashed hs.tree x hx)
  refine ⟨hmove.spec.trans hg.constants, hmove.derived hs.tree hg.derived, hknownAfter,
    fun entry hentry => ?_, ?_⟩
  · obtain ⟨old, hold, hsame⟩ := hmove.exists_entry hs.tree hentry
    have hsame : old.entry = entry := hsame
    rw [← hsame]
    cases hmove with
    | grow hsteps hnodes =>
      rw [← hnodes] at hold
      exact (hg.genuine_grown hK hs hsteps hknownAfter hold).replayed
    | settle hgrown => exact (hg.genuine_grown hK hs (hgrown.steps taken) hknown hold).replayed
    | broke hgrown => exact (hg.genuine_grown hK hs (hgrown.steps taken) hknown hold).replayed
  · show g.sink.OnFile tables spec _
    cases hmove with
    | grow _ _ hsink => exact hsink ▸ hg.ledger
    | settle hgrown hpath _ hsink =>
      rw [hsink, Ledger.pruneAll_eq]
      refine hg.ledger.handed hmemory (fun _ _ ha hb => ha.eq_of_root hK hb) fun entry hentry => ?_
      -- What is handed over are entries of the tree.
      obtain ⟨p, node, -, hnode, -, rfl⟩ := hpath.exists_node hentry
      exact hg.genuine_grown hK hs (hgrown.steps taken) hknown hnode
    | broke _ _ hpoisoned =>
      rw [hopen] at hpoisoned
      cases hpoisoned

theorem grounded_of_start (hmemory : Archive.InMemory tables) {anchor : Snapshot} {specs : Spec → Prop}
    (hanchor : anchor.state.Reached specs) {archive : τ} (hempty : tables archive = .empty)
    (hstart : start anchor spec archive = .ok h) (calls : List Call)
    (hK : CollisionFree (anchor.state.hashed ++ hashed calls h)) :
    (play calls h).Grounded tables (· ∈ accepted calls h) spec anchor.state
      (anchor.state.hashed ++ hashed calls h) :=
  keeps_play hK (fun hs hg hmove hknown => hg.move hmemory hK hs hmove hknown) hmemory.steady calls
    (fun _ => List.mem_append_right _) (fun _ => id) (sound_start hanchor hstart _)
    (grounded_start hmemory hK _ hempty hstart fun _ => List.mem_append_left _)

/-- Every entry that a history holds is read of one state. -/
theorem Grounded.exists_reads (hmemory : Archive.InMemory tables) (hK : CollisionFree K)
    (hs : h.Sound taken first) (hg : h.Grounded tables taken spec origin K) (he : h.Holds e) :
    ∃ s, Genuine taken spec origin K s ∧ e.summary = .ofState s ∧ e.Reads (Chain.files h) s := by
  cases he with
  | @node x hx =>
    obtain ⟨p, node, hnode, -, rfl⟩ := hx
    exact ⟨_, hg.genuine_grown hK hs Relation.ReflTransGen.refl hg.known hnode, node.entry.summary_eq,
      Entry.reads_node _ _⟩
  | @filed r hr =>
    obtain ⟨s, hget, heq, hgenuine⟩ := hg.ledger.get_eq hmemory hr
    exact ⟨s, hgenuine, heq, Entry.reads_filed h.ledger.spec hget⟩

end History

end BeaconHistory
