import BeaconHistory.ForkTree.Basic
import BeaconHistory.Proofs.Advance
import BeaconHistory.Proofs.Lookup

/-!
# ForkTree.Sound — what holds of every fork tree in use

The nodes form a tree over the anchor in which every step to a parent is a step to the slot before,
and the index of blocks holds neither more nor less than the blocks of the tree.  Main statements:
every node is as many steps away from the anchor as slots, and the run that a node belongs to starts
at the position indexed for its block.
-/

namespace BeaconHistory

theorem Snapshot.position_eq (e : Snapshot) :
    e.position = ⟨e.state.slot, e.state.latestBlockRoot⟩ := by
  unfold position
  rw [e.summary_eq]
  rfl

namespace ForkTree

theorem snapshot?_of_node {t : ForkTree} {p : Position} {node : Node} (hnode : t.nodes[p]? = some node) :
    t.snapshot? p = some node.entry := by
  unfold snapshot?
  rw [hnode]
  rfl

/-- `q` is the position right before the entry of `node`, kept at `p`: one slot earlier, with the
root that the entry links to. -/
structure Node.Follows (node : Node) (p q : Position) : Prop where
  parent : node.parent = some q
  slot : q.slot.toNat + 1 = p.slot.toNat
  root : q.root = node.entry.summary.linksTo

theorem Node.Follows.parent?_eq {t : ForkTree} {node : Node} {p q : Position}
    (h : node.Follows p q) (hnode : t.nodes[p]? = some node) : t.parent? p = some q := by
  unfold ForkTree.parent?
  rw [hnode]
  exact h.parent

/-- The invariant of fork trees. -/
structure Sound (t : ForkTree) : Prop where
  -- The anchor is a node without parent.
  anchor_node : ∃ entry, t.nodes[t.anchor]? = some ⟨entry, none⟩
  -- Every node is kept under the position of its entry.
  stored : ∀ (p : Position) (node : Node), t.nodes[p]? = some node → node.entry.position = p
  -- Any other node is later than the anchor and follows a node.
  linked : ∀ (p : Position) (node : Node), t.nodes[p]? = some node → p ≠ t.anchor →
    t.anchor.slot < p.slot ∧ ∃ q, q ∈ t.nodes ∧ node.Follows p q
  -- The index holds the anchor under the root it carries, and every block after the anchor.
  blocks_iff : ∀ (root : Root) (p : Position), t.blocks[root]? = some p ↔ p.root = root ∧ (p = t.anchor ∨
    p ≠ t.anchor ∧ ∃ node, t.nodes[p]? = some node ∧ node.entry.summary.isEmpty = false)
  -- The head is a node.
  head_mem : t.head ∈ t.nodes
  -- No state holds a block that is later than itself.
  aged : ∀ (p : Position) (node : Node), t.nodes[p]? = some node → node.entry.state.Aged

theorem nodes_plant_iff {spec : Spec} {anchor : Snapshot} {p : Position} {node : Node} :
    (plant spec anchor).nodes[p]? = some node ↔ anchor.position = p ∧ ⟨anchor, none⟩ = node := by
  simp only [plant, Lookup.getElem?_insert]
  by_cases hp : anchor.position = p <;> simp [hp]

theorem sound_plant (spec : Spec) {anchor : Snapshot} (haged : anchor.state.Aged) :
    (plant spec anchor).Sound := by
  refine ⟨⟨anchor, ?_⟩, ?_, ?_, ?_, ?_, ?_⟩
  · exact nodes_plant_iff.2 ⟨rfl, rfl⟩
  · intro p node h
    obtain ⟨rfl, rfl⟩ := nodes_plant_iff.1 h
    rfl
  · intro p node h hne
    exact absurd (nodes_plant_iff.1 h).1.symm hne
  · intro root p
    have hindex : (plant spec anchor).blocks[root]? = some p ↔
        anchor.position.root = root ∧ anchor.position = p := by
      simp only [plant, Lookup.getElem?_insert]
      by_cases hroot : anchor.position.root = root <;> simp [hroot]
    rw [hindex]
    constructor
    · rintro ⟨rfl, rfl⟩
      exact ⟨rfl, Or.inl rfl⟩
    · rintro ⟨hroot, hp | ⟨hne, node, hnode, -⟩⟩
      · subst hp
        exact ⟨hroot, rfl⟩
      · exact absurd (nodes_plant_iff.1 hnode).1.symm hne
  · exact Lookup.mem_of_eq_some (nodes_plant_iff.2 ⟨rfl, rfl⟩)
  · intro p node h
    obtain ⟨-, rfl⟩ := nodes_plant_iff.1 h
    exact haged

namespace Sound

variable {t : ForkTree}

theorem anchor_mem (h : t.Sound) : t.anchor ∈ t.nodes := by
  obtain ⟨entry, hentry⟩ := h.anchor_node
  exact Lookup.mem_of_eq_some hentry

theorem ne_anchor_of_parent (h : t.Sound) {p q : Position} {node : Node}
    (hnode : t.nodes[p]? = some node) (hparent : node.parent = some q) : p ≠ t.anchor := by
  rintro rfl
  obtain ⟨entry, hentry⟩ := h.anchor_node
  rw [hentry] at hnode
  cases hnode
  cases hparent

-- The link of a node is to the node before it.
theorem follows (h : t.Sound) {p q : Position} {node : Node} (hnode : t.nodes[p]? = some node)
    (hparent : node.parent = some q) : node.Follows p q := by
  obtain ⟨-, q', -, hfollows⟩ := h.linked p node hnode (h.ne_anchor_of_parent hnode hparent)
  have hq : q' = q := Option.some.inj (hfollows.parent.symm.trans hparent)
  exact hq ▸ hfollows

theorem anchor_slot_le (h : t.Sound) {p : Position} (hp : p ∈ t.nodes) :
    t.anchor.slot.toNat ≤ p.slot.toNat := by
  obtain ⟨node, hnode⟩ := (Lookup.mem_iff_exists _ _).1 hp
  by_cases hne : p = t.anchor
  · exact hne ▸ Nat.le_refl _
  · exact Nat.le_of_lt (UInt64.lt_iff_toNat_lt.1 (h.linked p node hnode hne).1)

theorem eq_anchor_of_slot_le (h : t.Sound) {p : Position} (hp : p ∈ t.nodes)
    (hslot : p.slot.toNat ≤ t.anchor.slot.toNat) : p = t.anchor := by
  obtain ⟨node, hnode⟩ := (Lookup.mem_iff_exists _ _).1 hp
  by_cases hne : p = t.anchor
  · exact hne
  · have hlt := UInt64.lt_iff_toNat_lt.1 (h.linked p node hnode hne).1
    omega

theorem climb_anchor (h : t.Sound) {p : Position} (hp : p ∈ t.nodes) :
    t.climb (p.slot.toNat - t.anchor.slot.toNat) p = some t.anchor := by
  -- Induction on the slots between the anchor and the node, of which each step takes one.
  generalize hn : p.slot.toNat - t.anchor.slot.toNat = n
  induction n generalizing p with
  | zero =>
    have heq := h.eq_anchor_of_slot_le hp (by omega)
    rw [heq]
    rfl
  | succ n ih =>
    have hne : p ≠ t.anchor := by
      rintro rfl
      omega
    obtain ⟨node, hnode⟩ := (Lookup.mem_iff_exists _ _).1 hp
    obtain ⟨hlt, q, hq, hfollows⟩ := h.linked p node hnode hne
    have hslot := hfollows.slot
    unfold climb
    rw [hfollows.parent?_eq hnode, Option.bind_some]
    exact ih hq (by omega)

-- A node lies on the run of the position that is indexed for its root.
theorem exists_origin (h : t.Sound) {p : Position} (hp : p ∈ t.nodes) :
    ∃ origin, t.blocks[p.root]? = some origin ∧ origin.slot.toNat ≤ p.slot.toNat ∧
      t.climb (p.slot.toNat - origin.slot.toNat) p = some origin := by
  generalize hn : p.slot.toNat - t.anchor.slot.toNat = n
  induction n generalizing p with
  | zero =>
    have heq := h.eq_anchor_of_slot_le hp (by omega)
    subst heq
    refine ⟨t.anchor, (h.blocks_iff _ _).2 ⟨rfl, Or.inl rfl⟩, Nat.le_refl _, ?_⟩
    rw [Nat.sub_self]
    rfl
  | succ n ih =>
    have hne : p ≠ t.anchor := by
      rintro rfl
      omega
    obtain ⟨node, hnode⟩ := (Lookup.mem_iff_exists _ _).1 hp
    by_cases hempty : node.entry.summary.isEmpty = true
    · obtain ⟨-, q, hq, hfollows⟩ := h.linked p node hnode hne
      have hslot := hfollows.slot
      -- An empty entry links to the root that it carries itself.
      have hroot : q.root = p.root := by
        rw [hfollows.root, Summary.linksTo, if_pos hempty, ← h.stored p node hnode]
        rfl
      obtain ⟨origin, hindex, hle, hclimb⟩ := ih hq (by omega)
      rw [hroot] at hindex
      refine ⟨origin, hindex, by omega, ?_⟩
      have hsteps : p.slot.toNat - origin.slot.toNat = q.slot.toNat - origin.slot.toNat + 1 := by
        omega
      rw [hsteps]
      unfold climb
      rw [hfollows.parent?_eq hnode, Option.bind_some]
      exact hclimb
    · -- A block starts a run of its own.
      refine ⟨p, (h.blocks_iff _ _).2 ⟨rfl, Or.inr ⟨hne, node, hnode, ?_⟩⟩, Nat.le_refl _, ?_⟩
      · exact Bool.eq_false_iff.2 hempty
      · rw [Nat.sub_self]
        rfl

theorem mem_of_blocks (h : t.Sound) {root : Root} {p : Position} (hp : t.blocks[root]? = some p) :
    p ∈ t.nodes := by
  obtain ⟨-, hp | ⟨-, node, hnode, -⟩⟩ := (h.blocks_iff root p).1 hp
  · rw [hp]
    exact h.anchor_mem
  · exact Lookup.mem_of_eq_some hnode

theorem root_of_blocks (h : t.Sound) {root : Root} {p : Position} (hp : t.blocks[root]? = some p) :
    p.root = root := ((h.blocks_iff root p).1 hp).1

theorem block?_eq_some_iff (h : t.Sound) {root : Root} {entry : Snapshot} :
    t.block? root = some entry ↔
      ∃ p node, t.blocks[root]? = some p ∧ p ≠ t.anchor ∧ t.nodes[p]? = some node ∧
        node.entry = entry := by
  unfold block?
  cases hp : t.blocks[root]? with
  | none => exact ⟨fun h => (by cases h), fun ⟨_, _, h, _⟩ => (by cases h)⟩
  | some p =>
    obtain ⟨node, hnode⟩ := (Lookup.mem_iff_exists _ _).1 (h.mem_of_blocks hp)
    rw [Option.bind_some, unfinalized?, snapshot?, hnode, Option.map_some]
    by_cases hne : p = t.anchor
    · rw [if_neg (hne ▸ UInt64.lt_irrefl _)]
      exact ⟨fun h => (by cases h), fun ⟨_, _, h, hne', _⟩ => (by cases h; exact absurd hne hne')⟩
    · rw [if_pos (h.linked p node hnode hne).1]
      constructor
      · intro hentry
        exact ⟨p, node, rfl, hne, hnode, Option.some.inj hentry⟩
      · rintro ⟨q, node', hq, -, hnode', rfl⟩
        cases hq
        rw [hnode] at hnode'
        cases hnode'
        rfl

/-- Between the position that is indexed for a block and any other that carries it, all positions are
nodes. -/
theorem mem_run (h : t.Sound) {p origin : Position} (hp : p ∈ t.nodes)
    (horigin : t.blocks[p.root]? = some origin) {s : UInt64} (hfrom : origin.slot ≤ s)
    (hto : s ≤ p.slot) : (⟨s, p.root⟩ : Position) ∈ t.nodes := by
  rw [UInt64.le_iff_toNat_le] at hfrom hto
  -- Induction on the slots up to `p`: the node before an empty slot carries the same block.
  generalize hn : p.slot.toNat - s.toNat = n
  induction n generalizing p with
  | zero =>
    have hs : s = p.slot := UInt64.toNat_inj.1 (by omega)
    rw [hs]
    exact hp
  | succ n ih =>
    have hne : p ≠ origin := by
      rintro rfl
      omega
    obtain ⟨node, hnode⟩ := (Lookup.mem_iff_exists _ _).1 hp
    have hanchor : p ≠ t.anchor := by
      rintro rfl
      rw [(h.blocks_iff _ _).2 ⟨rfl, Or.inl rfl⟩] at horigin
      exact hne (Option.some.inj horigin)
    have hempty : node.entry.summary.isEmpty = true := by
      cases hblock : node.entry.summary.isEmpty with
      | true => rfl
      | false =>
        rw [(h.blocks_iff _ p).2 ⟨rfl, Or.inr ⟨hanchor, node, hnode, hblock⟩⟩] at horigin
        exact absurd (Option.some.inj horigin) hne
    obtain ⟨-, q, hq, hfollows⟩ := h.linked p node hnode hanchor
    have hslot := hfollows.slot
    have hroot : q.root = p.root := by
      rw [hfollows.root, Summary.linksTo, if_pos hempty]
      exact congrArg Position.root (h.stored p node hnode)
    rw [← hroot] at horigin ⊢
    exact ih hq horigin (by omega) (by omega)

theorem slot_eq (h : t.Sound) {p : Position} {node : Node} (hnode : t.nodes[p]? = some node) :
    node.entry.state.slot = p.slot := by
  rw [← h.stored p node hnode, Snapshot.position_eq]

theorem root_eq (h : t.Sound) {p : Position} {node : Node} (hnode : t.nodes[p]? = some node) :
    node.entry.state.latestBlockRoot = p.root := by
  rw [← h.stored p node hnode, Snapshot.position_eq]

end Sound

end ForkTree

end BeaconHistory
