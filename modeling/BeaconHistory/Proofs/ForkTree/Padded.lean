import BeaconHistory.Proofs.ForkTree.Growing

/-!
# ForkTree.Padded — a tree beside one with more empty slots

Slots that were passed in vain stay in a tree.  Main statement: beside such slots the blocks and their
entries are the same, and an insertion makes no other difference.
-/

namespace BeaconHistory.ForkTree

variable {t u : ForkTree} {tip : Position} {entry : Snapshot} {b : Block}

/-- `u` has what `t` has, and may have empty slots that `t` has not. -/
structure Padded (t u : ForkTree) : Prop where
  spec : u.spec = t.spec
  anchor : u.anchor = t.anchor
  blocks : u.blocks = t.blocks
  nodes : ∀ (p : Position) (node : Node), t.nodes[p]? = some node → u.nodes[p]? = some node
  indexed : ∀ (root : Root) (p : Position), t.blocks[root]? = some p → p ∈ t.nodes

theorem Sprouting.padded (h : Sprouting t u) (ht : t.Sound) : t.Padded u :=
  ⟨Steps.spec (h.steps fun _ => False), h.anchor, h.blocks ht, fun _ _ hnode => h.nodes ht hnode,
    fun _ _ hp => ht.mem_of_blocks hp⟩

-- What was indexed leads to a node still, and so does what is indexed now.
theorem mem_of_blocks_insert
    (hindexed : ∀ (root : Root) (p : Position), t.blocks[root]? = some p → p ∈ t.nodes)
    (entry : Snapshot) (tip : Position) {root : Root} {p : Position}
    (hp : (t.insert entry tip).blocks[root]? = some p) : p ∈ (t.insert entry tip).nodes := by
  rw [blocks_insert] at hp
  split at hp
  · cases hp
    exact mem_insert_iff.2 (Or.inl rfl)
  · exact mem_insert_iff.2 (Or.inr (hindexed root p hp))

namespace Padded

variable (h : t.Padded u)

include h

/-! ## 1. Insertions -/

theorem insert (entry : Snapshot) (tip : Position) :
    (t.insert entry tip).Padded (u.insert entry tip) := by
  refine ⟨h.spec, h.anchor, ?_, fun p node hnode => ?_, fun _ _ => mem_of_blocks_insert h.indexed entry tip⟩
  · unfold ForkTree.insert
    rw [h.blocks]
  · rw [nodes_insert_iff] at hnode ⊢
    exact hnode.imp_right fun ⟨hne, hnode⟩ => ⟨hne, h.nodes p node hnode⟩

-- One of the slots that are held beside it is added to the tree that lacks it.
theorem insert_left (hempty : entry.summary.isEmpty = true)
    (hnode : u.nodes[entry.position]? = some ⟨entry, some tip⟩) : (t.insert entry tip).Padded u := by
  refine ⟨h.spec, h.anchor, ?_, fun p node hp => ?_, fun _ _ => mem_of_blocks_insert h.indexed entry tip⟩
  · rw [h.blocks]
    exact (if_pos hempty).symm
  · rcases nodes_insert_iff.1 hp with ⟨rfl, rfl⟩ | ⟨-, hp⟩
    · exact hnode
    · exact h.nodes p node hp

/-! ## 2. Entries -/

theorem mem {p : Position} (hp : p ∈ t.nodes) : p ∈ u.nodes := by
  obtain ⟨node, hnode⟩ := (Lookup.mem_iff_exists _ _).1 hp
  exact Lookup.mem_of_eq_some (h.nodes p node hnode)

theorem snapshot?_eq {p : Position} (hp : p ∈ t.nodes) : u.snapshot? p = t.snapshot? p := by
  obtain ⟨node, hnode⟩ := (Lookup.mem_iff_exists _ _).1 hp
  rw [snapshot?_of_node hnode, snapshot?_of_node (h.nodes p node hnode)]

theorem block?_eq (root : Root) : u.block? root = t.block? root := by
  unfold block?
  rw [h.blocks]
  cases hp : t.blocks[root]? with
  | none => rfl
  | some p =>
    rw [Option.bind_some, Option.bind_some, unfinalized?, unfinalized?, h.anchor,
      h.snapshot?_eq (h.indexed root p hp)]

-- What is built on a node of both is the same in both.
theorem emptyAfter_eq (htip : tip ∈ t.nodes) : emptyAfter tip u = emptyAfter tip t := by
  unfold emptyAfter snapshot
  rw [h.snapshot?_eq htip, h.spec]

theorem applied_eq (htip : tip ∈ t.nodes) : applied b tip u = applied b tip t := by
  unfold applied snapshot
  rw [h.snapshot?_eq htip, h.spec]

end Padded

end BeaconHistory.ForkTree
