import BeaconHistory.Proofs.Frontier.Fates
import BeaconHistory.Proofs.Frontier.Settlement

/-!
# Frontier.Pruning — what a new anchor leaves of the tree

Nodes are dropped in one pass by increasing position, and the indexes lose them one by one.  Main
statement: whenever a call moves the anchor, after any run, the nodes that stay are exactly those from
which the new anchor is reached by steps to the parent, the indexes lead to no other node, and the sink
is told of each node that is neither kept nor finalized, once.
-/

namespace BeaconHistory

namespace ForkTree

variable {t u : ForkTree} {reported : List Snapshot}

/-- The tree `u` is what is left of `t` once everything beside and before its anchor is dropped, and
`reported` are the entries dropped that were never finalized. -/
structure PrunedTo (t u : ForkTree) (reported : List Snapshot) : Prop where
  -- The new anchor is a later node of the tree.
  mem : u.anchor ∈ t.nodes
  later : t.anchor.slot < u.anchor.slot
  -- The descendants of the new anchor stay as they are, and the anchor loses its link.
  kept : ∀ (p : Position) (node : Node), u.nodes[p]? = some node ↔
    ∃ old, t.nodes[p]? = some old ∧ t.Descends p u.anchor ∧
      node = ⟨old.entry, if p = u.anchor then none else old.parent⟩
  -- No index leads to a node that is dropped.
  gone : ∀ p ∈ t.nodes, ¬ t.Descends p u.anchor →
    p ∉ u.nodes ∧ ∀ root : Root, u.blocks[root]? ≠ some p ∧ u.states[root]? ≠ some p
  -- The new anchor is indexed for its block, whose other slots are dropped.
  blocks : ∀ (root : Root) (p : Position), u.blocks[root]? = some p ↔
    if u.anchor.root = root then p = u.anchor else t.blocks[root]? = some p ∧ t.Descends p u.anchor
  states : ∀ (root : Root) (p : Position), u.states[root]? = some p ↔
    t.states[root]? = some p ∧ t.Descends p u.anchor
  -- The way from the old anchor to the new one is what the new one descends from.
  reported_iff : ∀ e : Snapshot, e ∈ reported ↔ ∃ p node, t.nodes[p]? = some node ∧ node.entry = e ∧
    ¬ t.Descends p u.anchor ∧ ¬ t.Descends u.anchor p
  once : (reported.map Snapshot.position).Nodup
  head : u.head = if t.head ∈ u.nodes then t.head else u.anchor

theorem Node.asKept_eq (node : Node) (a p : Position) :
    node.asKept a p = ⟨node.entry, if p = a then none else node.parent⟩ := by
  unfold asKept
  split <;> rfl

-- An index that is right for both trees has lost what was dropped, and nothing else.
theorem Indexed.states_reanchor_iff {a : Position} (h : t.Indexed) (h' : (t.reanchor a).1.Indexed)
    (ht : t.Sound) (ha : a ∈ t.nodes) (root : Root) (p : Position) :
    (t.reanchor a).1.states[root]? = some p ↔ t.states[root]? = some p ∧ t.Descends p a := by
  rw [h' root p, h root p]
  constructor
  · rintro ⟨_, hnode, rfl⟩
    obtain ⟨old, hold, hdescends, rfl⟩ := (nodes_reanchor_iff ht ha).1 hnode
    exact ⟨⟨old, hold, by rw [Node.entry_asKept]⟩, hdescends⟩
  · rintro ⟨⟨old, hold, rfl⟩, hdescends⟩
    exact ⟨_, (nodes_reanchor_iff ht ha).2 ⟨old, hold, hdescends, rfl⟩, by rw [Node.entry_asKept]⟩

theorem prunedTo_reanchor {a : Position} (ht : t.Sound) (hindexed : t.Indexed)
    (hindexed' : (t.reanchor a).1.Indexed) (ha : a ∈ t.nodes) (hslot : t.anchor.slot < a.slot) :
    t.PrunedTo (t.reanchor a).1 (t.reanchor a).2 := by
  have hblocks := blocks_reanchor_iff ht ha
  have hstates := hindexed.states_reanchor_iff hindexed' ht ha
  constructor
  case mem => exact ha
  case later => exact hslot
  case kept =>
    intro p node
    rw [nodes_reanchor_iff ht ha, anchor_reanchor]
    simp only [Node.asKept_eq]
  case gone =>
    intro p hp hnot
    refine ⟨fun hmem => hnot ((mem_reanchor_iff ht ha).1 hmem).2, fun root => ⟨fun hindex => ?_, ?_⟩⟩
    · have hkept := (hblocks root p).1 hindex
      split at hkept
      · exact hnot (hkept ▸ descends_refl t a)
      · exact hnot hkept.2
    · exact fun hindex => hnot ((hstates root p).1 hindex).2
  case blocks => exact hblocks
  case states => exact hstates
  case reported_iff => exact fun e => mem_pruned_iff ht ha
  case once => exact nodup_pruned ht a
  case head =>
    rcases head_reanchor ht ha with ⟨hdescends, hhead⟩ | ⟨hnot, hhead⟩
    · rw [hhead, if_pos ((mem_reanchor_iff ht ha).2 ⟨ht.head_mem, hdescends⟩)]
    · rw [hhead, if_neg fun hmem => hnot ((mem_reanchor_iff ht ha).1 hmem).2, anchor_reanchor]

end ForkTree

namespace Frontier

variable {σ : Type} [Sink σ]

-- What a watched sink is told to be pruned, if nothing was noted before.
theorem pruned_settled (f : Frontier σ) (path entries : List Snapshot) :
    (pruneAll entries (handOver path f.watched.sink).sink).pruned = entries := by
  rw [pruneAll_watched, (handOver_watched path f.watched.sink).2.2]
  rfl

/-- A move that takes the anchor elsewhere prunes the tree that has grown before, and reports that. -/
theorem Move.prunedTo {accepted : Block → Prop} {f : Frontier σ} {u : ForkTree} {g : Frontier (Watched σ)}
    (h : Move accepted f.watched u g) (ht : f.tree.Sound) (hindexed : f.tree.Indexed)
    {K : List (List UInt8)} (hK : CollisionFree K) (hhashed : ∀ x ∈ u.hashed, x ∈ K)
    (hmoved : g.tree.anchor ≠ f.tree.anchor) : u.PrunedTo g.tree g.sink.pruned := by
  have hafter := h.indexed ht hindexed hK hhashed
  cases h with
  | grow hsteps => exact absurd hsteps.anchor hmoved
  | broke hgrown htree =>
    rw [htree] at hmoved
    exact absurd hgrown.anchor hmoved
  | @settle _ path hgrown hpath htree hsink =>
    have hu := hgrown.sound ht
    have hbefore := (hgrown.steps fun _ => False).indexed ht hindexed hK hhashed
    obtain ⟨a, -, -, hsettles⟩ := exists_settles hu hpath (prefix_accepted path f.watched.sink)
    rw [hsink, pruned_settled]
    rw [htree] at hmoved hafter ⊢
    cases hsettles with
    | stays _ hsame =>
      rw [hsame] at hmoved
      exact absurd hgrown.anchor hmoved
    | moves hnode _ hslot heq hout =>
      rw [heq] at hafter ⊢
      rw [hout]
      exact ForkTree.prunedTo_reanchor hu hbefore hafter (Lookup.mem_of_eq_some hnode) hslot

theorem Call.prunedTo {f : Frontier σ} (c : Call) (ht : f.tree.Sound) (hindexed : f.tree.Indexed)
    (hK : CollisionFree (c.hashed f)) (hmoved : (c.after f).tree.anchor ≠ f.tree.anchor) :
    (c.base f).PrunedTo (c.after f).tree (c.after f.watched).sink.pruned := by
  have hopen : f.poisoned = false := by
    refine Bool.eq_false_iff.2 fun hpoisoned => hmoved ?_
    rw [c.after_of_poisoned hpoisoned]
  have hsame : (c.after f).tree = (c.after f.watched).tree :=
    congrArg Frontier.tree (c.unwatched_after f.watched).symm
  rw [hsame] at hmoved ⊢
  exact (c.move (f := f.watched) ht hK).prunedTo ht hindexed hK (c.hashed_base hopen) hmoved

/-- Whenever a call moves the anchor, after any run of calls and with any sink whatever, it prunes the
tree that has grown before, and tells the sink of what was never finalized.  What the sink is told is
noted by watching it, which changes nothing. -/
theorem prunedTo_of_run (spec : Spec) (sink : σ) {anchor : Snapshot} {specs : Spec → Prop}
    (hanchor : anchor.state.Reached specs) (calls : List Call) (c : Call)
    (hK : CollisionFree (hashed (calls ++ [c]) (plant anchor sink spec)))
    (hmoved : (c.after (play calls (plant anchor sink spec))).tree.anchor ≠
      (play calls (plant anchor sink spec)).tree.anchor) :
    (c.after (play calls (plant anchor sink spec)).watched).unwatched =
        c.after (play calls (plant anchor sink spec)) ∧
      (c.base (play calls (plant anchor sink spec))).PrunedTo
        (c.after (play calls (plant anchor sink spec))).tree
        (c.after (play calls (plant anchor sink spec)).watched).sink.pruned := by
  rw [hashed_append] at hK
  have htree := ForkTree.sound_plant spec hanchor.aged
  refine ⟨c.unwatched_after _, c.prunedTo (sound_play calls htree hK.left) ?_ hK.right.left hmoved⟩
  exact indexed_play calls htree hK.left (ForkTree.indexed_plant spec anchor)

-- The anchor moves to a block: its sibling and an empty slot are pruned, and its child is kept.
theorem prunedTo_of_run_tiny :
    CollisionFree (hashed (tinyFork ++ [.finalize tinyTip]) (plant tinyAnchor tinyPicker tinySpec)) ∧
      (play tinyFork (plant tinyAnchor tinyPicker tinySpec)).tree.nodes.keys =
        [tinyAnchor.position, ⟨1, tinyAnchor.position.root⟩, tinySecond, tinyFirst, tinyTip] ∧
      ((Call.finalize tinyTip).after
        (play tinyFork (plant tinyAnchor tinyPicker tinySpec))).tree.nodes.keys = [tinyFirst, tinyTip] ∧
      ((Call.finalize tinyTip).after
        (play tinyFork (plant tinyAnchor tinyPicker tinySpec)).watched).sink.pruned.map Snapshot.position =
          [⟨1, tinyAnchor.position.root⟩, tinySecond] ∧
      ((Call.finalize tinyTip).base (play tinyFork (plant tinyAnchor tinyPicker tinySpec))).PrunedTo
        ((Call.finalize tinyTip).after (play tinyFork (plant tinyAnchor tinyPicker tinySpec))).tree
        ((Call.finalize tinyTip).after
          (play tinyFork (plant tinyAnchor tinyPicker tinySpec)).watched).sink.pruned := by
  obtain ⟨hK, hbefore, hkeys, -, -, hafter, hkept, -⟩ := evaluated_fork
  obtain ⟨-, -, hreported⟩ := noted_fork
  rw [play_concat] at hafter hkept
  have hmoved : ((Call.finalize tinyTip).after
      (play tinyFork (plant tinyAnchor tinyPicker tinySpec))).tree.anchor ≠
      (play tinyFork (plant tinyAnchor tinyPicker tinySpec)).tree.anchor := by
    intro heq
    have hsame : tinyFirst = tinyAnchor.position := hafter.symm.trans (heq.trans hbefore)
    exact absurd (congrArg Position.slot hsame) (by decide)
  exact ⟨hK, hkeys, hkept, hreported,
    (prunedTo_of_run tinySpec tinyPicker reached_tiny tinyFork (.finalize tinyTip) hK hmoved).2⟩

end Frontier

end BeaconHistory
