import BeaconHistory.ForkTree.Growth
import BeaconHistory.Proofs.ForkTree.Sound

/-!
# ForkTree.Insert — one more node

A node is added in one place of the program, for the empty slot after a node and for a block.  Main
statement: a sound tree stays sound if the new node follows an old one and, where it holds a block,
the root of the block is not indexed yet.
-/

namespace BeaconHistory.ForkTree

variable {t : ForkTree} {entry : Snapshot} {tip : Position}

theorem nodes_insert (t : ForkTree) (entry : Snapshot) (tip p : Position) :
    (t.insert entry tip).nodes[p]? =
      if entry.position = p then some ⟨entry, some tip⟩ else t.nodes[p]? :=
  Lookup.getElem?_insert t.nodes entry.position p _

theorem mem_insert_iff {p : Position} :
    p ∈ (t.insert entry tip).nodes ↔ entry.position = p ∨ p ∈ t.nodes := by
  rw [Lookup.mem_iff_exists, Lookup.mem_iff_exists, nodes_insert]
  by_cases hp : entry.position = p <;> simp [hp]

theorem blocks_insert (t : ForkTree) (entry : Snapshot) (tip : Position) (root : Root) :
    (t.insert entry tip).blocks[root]? =
      if entry.summary.isEmpty = false ∧ entry.position.root = root then some entry.position
      else t.blocks[root]? := by
  unfold insert
  cases hempty : entry.summary.isEmpty with
  | true => simp
  | false =>
    simp only [Bool.false_eq_true, if_false, true_and]
    exact Lookup.getElem?_insert t.blocks entry.position.root root entry.position

/-- What a new node has to satisfy. -/
structure Fits (t : ForkTree) (entry : Snapshot) (tip : Position) : Prop where
  fresh : entry.position ∉ t.nodes
  tip_mem : tip ∈ t.nodes
  slot : tip.slot.toNat + 1 = entry.position.slot.toNat
  root : tip.root = entry.summary.linksTo
  aged : entry.state.Aged
  unindexed : entry.summary.isEmpty = false → t.blocks[entry.position.root]? = none

theorem Fits.ne_anchor (h : t.Fits entry tip) (ht : t.Sound) : entry.position ≠ t.anchor :=
  fun heq => h.fresh (heq ▸ ht.anchor_mem)

theorem Fits.anchor_slot_lt (h : t.Fits entry tip) (ht : t.Sound) :
    t.anchor.slot < entry.position.slot := by
  have hle := ht.anchor_slot_le h.tip_mem
  have hslot := h.slot
  rw [UInt64.lt_iff_toNat_lt]
  omega

theorem nodes_insert_iff {p : Position} {node : Node} :
    (t.insert entry tip).nodes[p]? = some node ↔
      (p = entry.position ∧ node = ⟨entry, some tip⟩) ∨
        (p ≠ entry.position ∧ t.nodes[p]? = some node) := by
  rw [nodes_insert]
  by_cases hp : entry.position = p
  · subst hp
    simp [eq_comm]
  · simp [hp, Ne.symm hp]

theorem Fits.blocks_iff (h : t.Fits entry tip) (ht : t.Sound) (root : Root) (p : Position) :
    (t.insert entry tip).blocks[root]? = some p ↔ p.root = root ∧ (p = t.anchor ∨ p ≠ t.anchor ∧
      ∃ node, (t.insert entry tip).nodes[p]? = some node ∧ node.entry.summary.isEmpty = false) := by
  have hne := h.ne_anchor ht
  by_cases hp : p = entry.position
  · -- The new position: it is indexed exactly if it holds a block.
    subst hp
    have hold : t.blocks[root]? ≠ some entry.position := fun hold =>
      h.fresh (ht.mem_of_blocks hold)
    rw [blocks_insert]
    constructor
    · intro hnew
      by_cases hcase : entry.summary.isEmpty = false ∧ entry.position.root = root
      · exact ⟨hcase.2, Or.inr ⟨hne, _, nodes_insert_iff.2 (Or.inl ⟨rfl, rfl⟩), hcase.1⟩⟩
      · rw [if_neg hcase] at hnew
        exact absurd hnew hold
    · rintro ⟨hroot, hanchor | ⟨-, node, hnode, hempty⟩⟩
      · exact absurd hanchor hne
      · rcases nodes_insert_iff.1 hnode with ⟨-, rfl⟩ | ⟨hother, -⟩
        · rw [if_pos ⟨hempty, hroot⟩]
        · exact absurd rfl hother
  · -- Any other position: its root is not the one that is newly indexed.
    have hsame : (t.insert entry tip).blocks[root]? = some p ↔ t.blocks[root]? = some p := by
      rw [blocks_insert]
      by_cases hcase : entry.summary.isEmpty = false ∧ entry.position.root = root
      · rw [if_pos hcase, ← hcase.2, h.unindexed hcase.1]
        exact ⟨fun heq => absurd (Option.some.inj heq).symm hp, fun heq => (by cases heq)⟩
      · rw [if_neg hcase]
    have hnodes (node : Node) :
        (t.insert entry tip).nodes[p]? = some node ↔ t.nodes[p]? = some node := by
      rw [nodes_insert_iff]
      exact ⟨fun hnode => hnode.elim (fun heq => absurd heq.1 hp) And.right,
        fun hnode => Or.inr ⟨hp, hnode⟩⟩
    rw [hsame, ht.blocks_iff]
    simp only [hnodes]

/-- Adding a node that fits keeps a tree sound. -/
theorem Sound.insert (ht : t.Sound) (h : t.Fits entry tip) : (t.insert entry tip).Sound := by
  refine ⟨?_, ?_, ?_, h.blocks_iff ht, ?_, ?_⟩
  · obtain ⟨anchor, hanchor⟩ := ht.anchor_node
    exact ⟨anchor, nodes_insert_iff.2 (Or.inr ⟨(h.ne_anchor ht).symm, hanchor⟩)⟩
  · intro p node hnode
    rcases nodes_insert_iff.1 hnode with ⟨rfl, rfl⟩ | ⟨-, hnode⟩
    · rfl
    · exact ht.stored p node hnode
  · intro p node hnode hne
    rcases nodes_insert_iff.1 hnode with ⟨rfl, rfl⟩ | ⟨-, hnode⟩
    · exact ⟨h.anchor_slot_lt ht, tip, mem_insert_iff.2 (Or.inr h.tip_mem), rfl, h.slot, h.root⟩
    · obtain ⟨hlt, q, hq, hfollows⟩ := ht.linked p node hnode hne
      exact ⟨hlt, q, mem_insert_iff.2 (Or.inr hq), hfollows⟩
  · exact mem_insert_iff.2 (Or.inr ht.head_mem)
  · intro p node hnode
    rcases nodes_insert_iff.1 hnode with ⟨-, rfl⟩ | ⟨-, hnode⟩
    · exact h.aged
    · exact ht.aged p node hnode

end BeaconHistory.ForkTree
