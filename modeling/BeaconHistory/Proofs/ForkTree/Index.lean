import BeaconHistory.Proofs.ForkTree.Growing
import BeaconHistory.Proofs.ForkTree.Reanchor

/-!
# ForkTree.Index — the nodes by the roots of their states

The index of states is written with every node and loses the root of every node that is dropped,
without a look at what else has that root.  It is right because no two nodes have states of one root,
unless a hash collides.  Main statement: the index stays right when the tree grows and when the anchor
moves.
-/

namespace BeaconHistory

theorem Snapshot.stateRoot_eq (e : Snapshot) : e.summary.stateRoot = e.state.root := by
  rw [e.summary_eq]
  rfl

namespace ForkTree

variable {t u : ForkTree} {K : List (List UInt8)}

/-- The index of states holds the root of the state of each node, and no other. -/
def Indexed (t : ForkTree) : Prop :=
  ∀ (root : Root) (p : Position), t.states[root]? = some p ↔
    ∃ node, t.nodes[p]? = some node ∧ node.entry.summary.stateRoot = root

theorem indexed_plant (spec : Spec) (anchor : Snapshot) : (plant spec anchor).Indexed := by
  intro root p
  simp only [plant, Lookup.getElem?_insert]
  by_cases hp : anchor.position = p <;> by_cases hroot : anchor.summary.stateRoot = root <;>
    simp [hp, hroot]

/-- A state is found at one position only. -/
theorem Sound.eq_of_stateRoot_eq (ht : t.Sound) (hK : CollisionFree K)
    (hhashed : ∀ x ∈ t.hashed, x ∈ K) {p q : Position} {node node' : Node}
    (hnode : t.nodes[p]? = some node) (hnode' : t.nodes[q]? = some node')
    (hroot : node.entry.summary.stateRoot = node'.entry.summary.stateRoot) : p = q := by
  rw [Snapshot.stateRoot_eq, Snapshot.stateRoot_eq] at hroot
  have hstate := hK.state_eq (fun x hx => hhashed x (mem_hashed_of_node hnode hx))
    (fun x hx => hhashed x (mem_hashed_of_node hnode' hx)) hroot
  rw [← ht.stored p node hnode, ← ht.stored q node' hnode', Snapshot.position_eq,
    Snapshot.position_eq, hstate]

/-! ## 1. Growth -/

theorem hashed_subset (h : ∀ (p : Position) (node : Node), t.nodes[p]? = some node →
    u.nodes[p]? = some node) : ∀ x ∈ t.hashed, x ∈ u.hashed := by
  intro x hx
  obtain ⟨⟨p, node⟩, hitem, hx⟩ := List.mem_flatMap.1 hx
  exact mem_hashed_of_node (h p node (Std.ExtTreeMap.mem_toList_iff_getElem?_eq_some.1 hitem)) hx

theorem Indexed.insert {entry : Snapshot} {tip : Position} (h : t.Indexed) (ht : t.Sound)
    (hfits : t.Fits entry tip) (hK : CollisionFree K)
    (hhashed : ∀ x ∈ (t.insert entry tip).hashed, x ∈ K) : (t.insert entry tip).Indexed := by
  intro root p
  show (t.states.insert entry.summary.stateRoot entry.position)[root]? = some p ↔ _
  have hnew : (t.insert entry tip).nodes[entry.position]? = some ⟨entry, some tip⟩ :=
    nodes_insert_iff.2 (Or.inl ⟨rfl, rfl⟩)
  rw [Lookup.getElem?_insert]
  by_cases hroot : entry.summary.stateRoot = root
  · -- No node has the root of the new state, so overwriting it loses nothing.
    rw [if_pos hroot]
    constructor
    · intro hp
      cases hp
      exact ⟨_, hnew, hroot⟩
    · rintro ⟨node, hnode, hsame⟩
      rw [(ht.insert hfits).eq_of_stateRoot_eq hK hhashed hnew hnode (hroot.trans hsame.symm)]
  · rw [if_neg hroot, h root p]
    constructor
    · rintro ⟨node, hnode, hsame⟩
      exact ⟨node, hfits.nodes hnode, hsame⟩
    · rintro ⟨node, hnode, hsame⟩
      rcases nodes_insert_iff.1 hnode with ⟨-, rfl⟩ | ⟨-, hnode⟩
      · exact absurd hsame hroot
      · exact ⟨node, hnode, hsame⟩

theorem Step.indexed {accepted : Block → Prop} (h : Step accepted t u) (ht : t.Sound)
    (hindexed : t.Indexed) (hK : CollisionFree K) (hhashed : ∀ x ∈ u.hashed, x ∈ K) : u.Indexed := by
  cases h with
  | sprout h => exact hindexed.insert ht (h.fits ht) hK hhashed
  | graft _ h => exact hindexed.insert ht (h.fits ht) hK hhashed
  | point h => exact hindexed

theorem Steps.indexed {accepted : Block → Prop} (h : Steps accepted t u) (ht : t.Sound)
    (hindexed : t.Indexed) (hK : CollisionFree K) (hhashed : ∀ x ∈ u.hashed, x ∈ K) : u.Indexed := by
  induction h with
  | refl => exact hindexed
  | tail hsteps hstep ih =>
    have hu := Steps.sound hsteps ht
    have hbefore := hashed_subset fun _ _ hnode => hstep.nodes hu hnode
    exact hstep.indexed hu (ih fun x hx => hhashed x (hbefore x hx)) hK hhashed

/-! ## 2. What determines a tree -/

/-- A sound tree is determined by its nodes, its anchor and its head. -/
theorem Sound.eq_of_nodes (ht : t.Sound) (hu : u.Sound) (hindexed : t.Indexed) (hindexed' : u.Indexed)
    (hspec : t.spec = u.spec) (hanchor : t.anchor = u.anchor) (hhead : t.head = u.head)
    (hnodes : t.nodes = u.nodes) : t = u := by
  have hblocks : t.blocks = u.blocks := by
    apply Std.ExtTreeMap.ext_getElem?
    intro root
    apply Option.ext
    intro p
    rw [ht.blocks_iff, hu.blocks_iff, hanchor, hnodes]
  have hstates : t.states = u.states := by
    apply Std.ExtTreeMap.ext_getElem?
    intro root
    apply Option.ext
    intro p
    rw [hindexed root p, hindexed' root p, hnodes]
  cases t
  cases u
  rw [ForkTree.mk.injEq]
  exact ⟨hspec, hanchor, hhead, hnodes, hblocks, hstates⟩

/-! ## 3. Moving the anchor -/

theorem states_foldl_forget_iff (t : ForkTree) (items : List (Position × Node)) (root : Root)
    (p : Position) :
    (items.foldl forget t).states[root]? = some p ↔
      t.states[root]? = some p ∧ ∀ item ∈ items, item.2.entry.summary.stateRoot ≠ root := by
  induction items generalizing t with
  | nil => simp
  | cons item items ih =>
    rw [List.foldl_cons, ih, List.forall_mem_cons]
    show (t.states.erase item.2.entry.summary.stateRoot)[root]? = some p ∧ _ ↔ _
    rw [Lookup.getElem?_erase]
    by_cases hroot : item.2.entry.summary.stateRoot = root <;> simp [hroot]

theorem Indexed.reanchor (h : t.Indexed) (ht : t.Sound) (hK : CollisionFree K)
    (hhashed : ∀ x ∈ t.hashed, x ∈ K) {a : Position} (ha : a ∈ t.nodes) :
    (t.reanchor a).1.Indexed := by
  intro root p
  show ((t.sortOut a).dropped.reverse.foldl forget t).states[root]? = some p ↔ _
  have hdropped := (sortedBy_sortOut ht ha).dropped
  rw [states_foldl_forget_iff, h root p]
  constructor
  · rintro ⟨⟨node, hnode, rfl⟩, hkept⟩
    have hdescends : t.Descends p a := by
      refine Classical.byContradiction fun hnot => ?_
      have hitem := (hdropped (p, node)).2
        ⟨Std.ExtTreeMap.mem_toList_iff_getElem?_eq_some.2 hnode, hnot⟩
      exact hkept (p, node) (List.mem_reverse.2 hitem) rfl
    exact ⟨_, (nodes_reanchor_iff ht ha).2 ⟨node, hnode, hdescends, rfl⟩, by rw [Node.entry_asKept]⟩
  · rintro ⟨_, hnode, rfl⟩
    obtain ⟨old, hold, hdescends, rfl⟩ := (nodes_reanchor_iff ht ha).1 hnode
    rw [Node.entry_asKept]
    refine ⟨⟨old, hold, rfl⟩, ?_⟩
    -- A node that is dropped is another one, so it has another root.
    rintro ⟨q, node⟩ hitem hsame
    obtain ⟨hmem, hnot⟩ := (hdropped (q, node)).1 (List.mem_reverse.1 hitem)
    have hq := ht.eq_of_stateRoot_eq hK hhashed (Std.ExtTreeMap.mem_toList_iff_getElem?_eq_some.1 hmem)
      hold hsame
    exact hnot (hq ▸ hdescends)

end ForkTree

end BeaconHistory
