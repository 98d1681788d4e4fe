import BeaconHistory.Proofs.Frontier.Run
import BeaconHistory.Proofs.Replay

/-!
# Frontier.Replayed — no state of the tree is made up

The state of a node is made of that of the node before it: an empty slot is left, and a block is applied
to an empty slot that other blocks may share.  Main statement: whatever calls are made, the state of
every node is that of replaying the blocks of its branch.
-/

namespace BeaconHistory

namespace ForkTree

variable {t u : ForkTree} {taken : Block → Prop} {origin : State} {entry : Snapshot} {tip : Position}

/-- The nodes are read with the constants of the tree, and their states are replayed from `origin`. -/
def Replayed (taken : Block → Prop) (origin : State) (t : ForkTree) : Prop :=
  ∀ (p : Position) (node : Node), t.nodes[p]? = some node →
    node.entry.spec = t.spec ∧ ∃ blocks, Replays taken t.spec origin blocks node.entry.state

theorem replayed_plant (taken : Block → Prop) (anchor : Snapshot) :
    (plant anchor.spec anchor).Replayed taken anchor.state := by
  intro p node hnode
  obtain ⟨-, rfl⟩ := nodes_plant_iff.1 hnode
  exact ⟨rfl, [], .start taken anchor.spec anchor.state⟩

theorem Replayed.insert (h : t.Replayed taken origin) (hspec : entry.spec = t.spec)
    (hentry : ∃ blocks, Replays taken t.spec origin blocks entry.state) :
    (t.insert entry tip).Replayed taken origin := by
  intro p node hnode
  rcases nodes_insert_iff.1 hnode with ⟨-, rfl⟩ | ⟨-, hnode⟩
  · exact ⟨hspec, hentry⟩
  · exact h p node hnode

theorem Step.replayed (h : Step taken t u) (ht : t.Sound) (hreplayed : t.Replayed taken origin) :
    u.Replayed taken origin := by
  cases h with
  | @sprout entry tip h =>
    obtain ⟨node, hnode, hstate⟩ := h.state
    obtain ⟨-, blocks, hreplays⟩ := hreplayed tip node hnode
    -- The new position has the root of the old one, so the latest block is the same.
    have hroot : entry.state.latestBlockRoot = node.entry.state.latestBlockRoot := by
      have hposition := h.position
      rw [Snapshot.position_eq] at hposition
      exact (congrArg Position.root hposition).trans (ht.root_eq hnode).symm
    exact hreplayed.insert h.spec ⟨blocks, hreplays.advance hstate hroot⟩
  | @graft b entry tip hb h =>
    obtain ⟨node, hnode, hstate⟩ := h.state
    obtain ⟨-, blocks, hreplays⟩ := hreplayed (following tip) node hnode
    have hslot : node.entry.state.slot = b.slot := by rw [ht.slot_eq hnode, following_eq h.slot]
    exact hreplayed.insert h.spec ⟨_, hreplays.apply hb hslot hstate⟩
  | point h => exact hreplayed

theorem Steps.replayed (h : Steps taken t u) (ht : t.Sound) (hreplayed : t.Replayed taken origin) :
    u.Replayed taken origin := by
  induction h with
  | refl => exact hreplayed
  | tail hsteps hstep ih => exact hstep.replayed (Steps.sound hsteps ht) ih

end ForkTree

namespace Frontier

variable {σ : Type} [Sink σ] {f g : Frontier σ} {u : ForkTree} {taken : Block → Prop} {origin : State}

/-- A move makes no entry but those that the growth of the tree made. -/
theorem Move.exists_entry (h : Move taken f u g) (ht : f.tree.Sound) {p : Position}
    {node : ForkTree.Node} (hnode : g.tree.nodes[p]? = some node) :
    ∃ old, u.nodes[p]? = some old ∧ old.entry = node.entry := by
  cases h with
  | grow _ hnodes => exact ⟨node, hnodes ▸ hnode, rfl⟩
  | @settle _ path hgrown hpath htree =>
    have hu := hgrown.sound ht
    obtain ⟨a, -, -, hsettles⟩ := exists_settles hu hpath (prefix_accepted path f.sink)
    cases hsettles with
    | stays _ heq =>
      rw [htree, heq] at hnode
      exact ⟨node, hnode, rfl⟩
    | moves hanchor _ _ heq =>
      rw [htree, heq] at hnode
      have ha : a ∈ u.nodes := Lookup.mem_of_eq_some hanchor
      obtain ⟨old, hold, -, rfl⟩ := (ForkTree.nodes_reanchor_iff hu ha).1 hnode
      exact ⟨old, hold, (ForkTree.Node.entry_asKept old a p).symm⟩
  | broke _ htree => exact ⟨node, htree ▸ hnode, rfl⟩

theorem Move.hashed (h : Move taken f u g) (ht : f.tree.Sound) : ∀ x ∈ g.tree.hashed, x ∈ u.hashed := by
  intro x hx
  obtain ⟨⟨p, node⟩, hitem, hx⟩ := List.mem_flatMap.1 hx
  obtain ⟨old, hold, hentry⟩ :=
    h.exists_entry ht (Std.ExtTreeMap.mem_toList_iff_getElem?_eq_some.1 hitem)
  exact ForkTree.mem_hashed_of_node hold (hentry ▸ hx)

/-- What holds of all entries of what the tree can grow to holds of all entries after the move. -/
theorem Move.forall_entry (good : Snapshot → Prop) (h : Move taken f u g) (ht : f.tree.Sound)
    (hgrown : ∀ t, ForkTree.Steps taken f.tree t →
      ∀ (p : Position) (node : ForkTree.Node), t.nodes[p]? = some node → good node.entry)
    {p : Position} {node : ForkTree.Node} (hnode : g.tree.nodes[p]? = some node) : good node.entry := by
  obtain ⟨old, hold, hentry⟩ := h.exists_entry ht hnode
  rw [← hentry]
  cases h with
  | grow hsteps hnodes => exact hgrown _ hsteps p old (hnodes ▸ hold)
  | settle hsprouting => exact hgrown u (hsprouting.steps taken) p old hold
  | broke hsprouting => exact hgrown u (hsprouting.steps taken) p old hold

theorem Move.replayed (h : Move taken f u g) (ht : f.tree.Sound)
    (hreplayed : f.tree.Replayed taken origin) : g.tree.Replayed taken origin := by
  intro p node hnode
  rw [h.spec]
  refine h.forall_entry (fun e => e.spec = f.tree.spec ∧
    ∃ blocks, Replays taken f.tree.spec origin blocks e.state) ht (fun t hsteps p node hnode => ?_) hnode
  rw [← hsteps.spec]
  exact hsteps.replayed ht hreplayed p node hnode

end Frontier

end BeaconHistory
