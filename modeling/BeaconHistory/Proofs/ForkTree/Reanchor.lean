import BeaconHistory.Proofs.ForkTree.Descent
import BeaconHistory.Proofs.Position

/-!
# ForkTree.Reanchor — what is left when the anchor moves

The nodes are sorted in one pass by increasing position, which tells the descendants of the new anchor
because a parent is one slot earlier than its child.  Main statements: the nodes kept are those that
descend from the new anchor, the index loses the roots of the others, the entries reported are those on
other branches, each once, and the tree stays sound.
-/

namespace BeaconHistory.ForkTree

variable {t : ForkTree} {a : Position}

-- A node as it is kept: the new anchor loses its link.
def Node.asKept (node : Node) (a p : Position) : Node :=
  if p = a then { node with parent := none } else node

@[simp] theorem Node.entry_asKept (node : Node) (a p : Position) :
    (node.asKept a p).entry = node.entry := by
  unfold asKept
  split <;> rfl

/-- The nodes of `items` are sorted by whether they descend from `a`. -/
structure SortedBy (t : ForkTree) (a : Position) (items : List (Position × Node)) (s : Sorted) :
    Prop where
  kept : ∀ (p : Position) (node : Node), s.kept[p]? = some node ↔
    ∃ old, (p, old) ∈ items ∧ t.Descends p a ∧ node = old.asKept a p
  dropped : ∀ item : Position × Node, item ∈ s.dropped ↔ item ∈ items ∧ ¬ t.Descends item.1 a

-- Where the node at `p` goes, if all nodes before it are sorted.
theorem stays_iff (ht : t.Sound) (ha : a ∈ t.nodes) {items : List (Position × Node)} {s : Sorted}
    (hs : t.SortedBy a items s) {p : Position} {node : Node} (hnode : t.nodes[p]? = some node)
    (hne : p ≠ a)
    (hbefore : ∀ q node', t.nodes[q]? = some node' → q.slot < p.slot → (q, node') ∈ items) :
    (a.slot < p.slot ∧ node.parent.any s.kept.contains = true) ↔ t.Descends p a := by
  have hp : p ∈ t.nodes := Lookup.mem_of_eq_some hnode
  by_cases hanchor : p = t.anchor
  · -- The old anchor has no parent, and descends from itself alone.
    subst hanchor
    have hlt : ¬ a.slot < t.anchor.slot := by
      rw [UInt64.lt_iff_toNat_lt]
      have := ht.anchor_slot_le ha
      omega
    exact ⟨fun h => absurd h.1 hlt, fun h => absurd (ht.slot_lt_of_descends hp h hne) hlt⟩
  · obtain ⟨q, hq, hparent, hfollows⟩ := ht.exists_parent hnode hanchor
    obtain ⟨node', hnode'⟩ := (Lookup.mem_iff_exists _ _).1 hq
    have hslot := hfollows.slot
    have hkept : s.kept.contains q = true ↔ t.Descends q a := by
      rw [Std.ExtTreeMap.contains_iff_mem, Lookup.mem_iff_exists]
      constructor
      · rintro ⟨x, hx⟩
        obtain ⟨_, -, hdescends, -⟩ := (hs.kept q x).1 hx
        exact hdescends
      · intro hdescends
        have hitem := hbefore q node' hnode' (UInt64.lt_iff_toNat_lt.2 (by omega))
        exact ⟨_, (hs.kept q _).2 ⟨node', hitem, hdescends, rfl⟩⟩
    -- The parent is one slot earlier, so it has been sorted already.
    rw [hfollows.parent, Option.any_some, hkept, descends_iff_of_parent hparent hne]
    refine ⟨And.right, fun h => ⟨?_, h⟩⟩
    exact ht.slot_lt_of_descends hp ((descends_iff_of_parent hparent hne).2 h) hne

theorem SortedBy.keep {items : List (Position × Node)} {s : Sorted} (hs : t.SortedBy a items s)
    {p : Position} {node : Node} (hnew : ∀ item ∈ items, item.1 ≠ p) (h : t.Descends p a) :
    t.SortedBy a (items ++ [(p, node)]) { s with kept := s.kept.insert p (node.asKept a p) } := by
  constructor
  · intro x new
    rw [Lookup.getElem?_insert]
    by_cases hx : p = x
    · subst hx
      simp only [if_true, Option.some.injEq, List.mem_append, List.mem_singleton, Prod.mk.injEq,
        true_and]
      constructor
      · intro heq
        exact ⟨node, Or.inr rfl, h, heq.symm⟩
      · rintro ⟨old, hold | rfl, -, heq⟩
        · exact absurd rfl (hnew _ hold)
        · exact heq.symm
    · rw [if_neg hx, hs.kept]
      simp only [List.mem_append, List.mem_singleton, Prod.mk.injEq, Ne.symm hx, false_and, or_false]
  · intro item
    rw [hs.dropped, List.mem_append, List.mem_singleton]
    constructor
    · rintro ⟨hitem, hnot⟩
      exact ⟨Or.inl hitem, hnot⟩
    · rintro ⟨hitem | rfl, hnot⟩
      · exact ⟨hitem, hnot⟩
      · exact absurd h hnot

theorem SortedBy.drop {items : List (Position × Node)} {s : Sorted} (hs : t.SortedBy a items s)
    {p : Position} {node : Node} (h : ¬ t.Descends p a) :
    t.SortedBy a (items ++ [(p, node)]) { s with dropped := (p, node) :: s.dropped } := by
  constructor
  · intro x new
    rw [hs.kept]
    constructor
    · rintro ⟨old, hold, hdescends, heq⟩
      exact ⟨old, List.mem_append_left _ hold, hdescends, heq⟩
    · rintro ⟨old, hold, hdescends, heq⟩
      rcases List.mem_append.1 hold with hold | hold
      · exact ⟨old, hold, hdescends, heq⟩
      · rw [List.mem_singleton, Prod.mk.injEq] at hold
        exact absurd (hold.1 ▸ hdescends) h
  · intro item
    rw [List.mem_cons, hs.dropped, List.mem_append, List.mem_singleton]
    constructor
    · rintro (rfl | ⟨hitem, hnot⟩)
      · exact ⟨Or.inr rfl, h⟩
      · exact ⟨Or.inl hitem, hnot⟩
    · rintro ⟨hitem | rfl, hnot⟩
      · exact Or.inr ⟨hitem, hnot⟩
      · exact Or.inl rfl

theorem SortedBy.add (ht : t.Sound) (ha : a ∈ t.nodes) {items : List (Position × Node)} {s : Sorted}
    (hs : t.SortedBy a items s) {p : Position} {node : Node} (hnode : t.nodes[p]? = some node)
    (hnew : ∀ item ∈ items, item.1 ≠ p)
    (hbefore : ∀ q node', t.nodes[q]? = some node' → q.slot < p.slot → (q, node') ∈ items) :
    t.SortedBy a (items ++ [(p, node)]) (s.add a (p, node)) := by
  unfold Sorted.add
  dsimp only
  by_cases hp : p = a
  · have hkeep : t.SortedBy a (items ++ [(p, node)]) _ := hs.keep hnew (hp ▸ descends_refl t p)
    rw [Node.asKept, if_pos hp] at hkeep
    rw [if_pos hp]
    exact hkeep
  · rw [if_neg hp]
    have hiff := stays_iff ht ha hs hnode hp hbefore
    by_cases hstays : a.slot < p.slot ∧ node.parent.any s.kept.contains = true
    · have hkeep : t.SortedBy a (items ++ [(p, node)]) _ := hs.keep hnew (hiff.1 hstays)
      rw [Node.asKept, if_neg hp] at hkeep
      rw [if_pos hstays]
      exact hkeep
    · rw [if_neg hstays]
      exact hs.drop fun h => hstays (hiff.2 h)

theorem sortedBy_foldl (ht : t.Sound) (ha : a ∈ t.nodes) (items rest : List (Position × Node))
    (hall : t.nodes.toList = items ++ rest) {s : Sorted} (hs : t.SortedBy a items s) :
    t.SortedBy a t.nodes.toList (rest.foldl (Sorted.add a) s) := by
  -- The nodes come by increasing position, so those at an earlier slot are among `items`.
  induction rest generalizing items s with
  | nil =>
    rw [hall, List.append_nil]
    exact hs
  | cons item rest ih =>
    obtain ⟨p, node⟩ := item
    have hordered := Std.ExtTreeMap.ordered_keys_toList (t := t.nodes)
    rw [hall, List.pairwise_append] at hordered
    obtain ⟨-, -, hcross⟩ := hordered
    have hnode : t.nodes[p]? = some node := by
      rw [← Std.ExtTreeMap.mem_toList_iff_getElem?_eq_some, hall]
      simp
    have hnew : ∀ item ∈ items, item.1 ≠ p := by
      intro item hitem heq
      have hlt := hcross item hitem (p, node) (by simp)
      rw [heq, Std.compare_self] at hlt
      cases hlt
    have hbefore : ∀ q node', t.nodes[q]? = some node' → q.slot < p.slot → (q, node') ∈ items :=
      fun q node' => Position.mem_before_of_slot_lt hall
    rw [List.foldl_cons]
    exact ih (items ++ [(p, node)]) (by rw [hall, List.append_assoc]; rfl)
      (hs.add ht ha hnode hnew hbefore)

theorem sortedBy_sortOut (ht : t.Sound) (ha : a ∈ t.nodes) :
    t.SortedBy a t.nodes.toList (t.sortOut a) := by
  refine sortedBy_foldl ht ha [] t.nodes.toList rfl ⟨?_, ?_⟩
  · intro p node
    simp
  · intro item
    simp

/-! ## The tree that is left -/

theorem blocks_forget_iff (t : ForkTree) (item : Position × Node) (root : Root) (p : Position) :
    (t.forget item).blocks[root]? = some p ↔
      t.blocks[root]? = some p ∧ ¬ (item.1.root = root ∧ item.1 = p) := by
  unfold forget
  by_cases hindexed : t.blocks[item.1.root]? = some item.1
  · simp only [hindexed, if_true, Lookup.getElem?_erase]
    by_cases hroot : item.1.root = root
    · rw [if_pos hroot, ← hroot, hindexed]
      simp
    · simp [hroot]
  · simp only [hindexed, if_false]
    refine ⟨fun h => ⟨h, ?_⟩, And.left⟩
    rintro ⟨hroot, hp⟩
    rw [hroot, hp] at hindexed
    exact hindexed h

theorem foldl_forget (t : ForkTree) (items : List (Position × Node)) :
    (items.foldl forget t).spec = t.spec ∧ (items.foldl forget t).head = t.head ∧
      ∀ root p, (items.foldl forget t).blocks[root]? = some p ↔
        t.blocks[root]? = some p ∧ ∀ item ∈ items, ¬ (item.1.root = root ∧ item.1 = p) := by
  induction items generalizing t with
  | nil => simp
  | cons item items ih =>
    obtain ⟨hspec, hhead, hblocks⟩ := ih (t.forget item)
    refine ⟨hspec, hhead, ?_⟩
    intro root p
    rw [List.foldl_cons, hblocks, blocks_forget_iff, List.forall_mem_cons, and_assoc]

theorem anchor_reanchor (t : ForkTree) (a : Position) : (t.reanchor a).1.anchor = a := rfl

theorem spec_reanchor (t : ForkTree) (a : Position) : (t.reanchor a).1.spec = t.spec :=
  (foldl_forget t _).1

/-- The nodes that stay are those that descend from the new anchor. -/
theorem nodes_reanchor_iff (ht : t.Sound) (ha : a ∈ t.nodes) {p : Position} {node : Node} :
    (t.reanchor a).1.nodes[p]? = some node ↔
      ∃ old, t.nodes[p]? = some old ∧ t.Descends p a ∧ node = old.asKept a p := by
  simp only [← Std.ExtTreeMap.mem_toList_iff_getElem?_eq_some (t := t.nodes)]
  exact (sortedBy_sortOut ht ha).kept p node

theorem mem_reanchor_iff (ht : t.Sound) (ha : a ∈ t.nodes) {p : Position} :
    p ∈ (t.reanchor a).1.nodes ↔ p ∈ t.nodes ∧ t.Descends p a := by
  rw [Lookup.mem_iff_exists, Lookup.mem_iff_exists]
  constructor
  · rintro ⟨node, hnode⟩
    obtain ⟨old, hold, hdescends, -⟩ := (nodes_reanchor_iff ht ha).1 hnode
    exact ⟨⟨old, hold⟩, hdescends⟩
  · rintro ⟨⟨old, hold⟩, hdescends⟩
    exact ⟨_, (nodes_reanchor_iff ht ha).2 ⟨old, hold, hdescends, rfl⟩⟩

-- The index that stays: the new anchor under its root, and the blocks that descend from it.
theorem blocks_reanchor_iff (ht : t.Sound) (ha : a ∈ t.nodes) (root : Root) (p : Position) :
    (t.reanchor a).1.blocks[root]? = some p ↔
      if a.root = root then p = a else t.blocks[root]? = some p ∧ t.Descends p a := by
  show (((t.sortOut a).dropped.reverse.foldl forget t).blocks.insert a.root a)[root]? = some p ↔ _
  rw [Lookup.getElem?_insert]
  by_cases hroot : a.root = root
  · simp [hroot, eq_comm]
  · rw [if_neg hroot, if_neg hroot, (foldl_forget t _).2.2]
    apply and_congr_right
    intro hindex
    obtain ⟨node, hnode⟩ := (Lookup.mem_iff_exists _ _).1 (ht.mem_of_blocks hindex)
    have hdropped := (sortedBy_sortOut ht ha).dropped
    constructor
    · intro hforgotten
      by_cases hdescends : t.Descends p a
      · exact hdescends
      · have hitem := (hdropped (p, node)).2
          ⟨Std.ExtTreeMap.mem_toList_iff_getElem?_eq_some.2 hnode, hdescends⟩
        exact absurd ⟨ht.root_of_blocks hindex, rfl⟩
          (hforgotten (p, node) (List.mem_reverse.2 hitem))
    · rintro hdescends item hitem ⟨-, rfl⟩
      exact ((hdropped item).1 (List.mem_reverse.1 hitem)).2 hdescends

theorem blocks_iff_reanchor (ht : t.Sound) (ha : a ∈ t.nodes) (hslot : t.anchor.slot < a.slot)
    (root : Root) (p : Position) :
    (t.reanchor a).1.blocks[root]? = some p ↔ p.root = root ∧ (p = a ∨ p ≠ a ∧
      ∃ node, (t.reanchor a).1.nodes[p]? = some node ∧ node.entry.summary.isEmpty = false) := by
  have hafter (h : t.Descends p a) (hp : p ∈ t.nodes) (hne : p ≠ a) : p ≠ t.anchor := by
    rintro rfl
    exact UInt64.lt_irrefl _ (UInt64.lt_trans hslot (ht.slot_lt_of_descends hp h hne))
  rw [blocks_reanchor_iff ht ha]
  by_cases hroot : a.root = root
  · rw [if_pos hroot]
    constructor
    · rintro rfl
      exact ⟨hroot, Or.inl rfl⟩
    · rintro ⟨hproot, hp | ⟨hne, node, hnode, hblock⟩⟩
      · exact hp
      · -- A later block with the root of the new anchor would be indexed in place of its own block.
        obtain ⟨old, hold, hdescends, rfl⟩ := (nodes_reanchor_iff ht ha).1 hnode
        have hp : p ∈ t.nodes := Lookup.mem_of_eq_some hold
        rw [Node.entry_asKept] at hblock
        have hindex : t.blocks[a.root]? = some p := (ht.blocks_iff _ _).2
          ⟨hproot.trans hroot.symm, Or.inr ⟨hafter hdescends hp hne, old, hold, hblock⟩⟩
        obtain ⟨origin, horigin, hle, -⟩ := ht.exists_origin ha
        rw [hindex, Option.some.injEq] at horigin
        have hlt := UInt64.lt_iff_toNat_lt.1 (ht.slot_lt_of_descends hp hdescends hne)
        subst horigin
        omega
  · rw [if_neg hroot]
    constructor
    · rintro ⟨hindex, hdescends⟩
      have hproot := ht.root_of_blocks hindex
      have hne : p ≠ a := fun heq => hroot (heq ▸ hproot)
      obtain ⟨-, hp | ⟨-, node, hnode, hblock⟩⟩ := (ht.blocks_iff root p).1 hindex
      · exact absurd hp (hafter hdescends (ht.mem_of_blocks hindex) hne)
      · refine ⟨hproot, Or.inr ⟨hne, _, (nodes_reanchor_iff ht ha).2 ⟨node, hnode, hdescends, rfl⟩, ?_⟩⟩
        rw [Node.entry_asKept]
        exact hblock
    · rintro ⟨hproot, hp | ⟨hne, node, hnode, hblock⟩⟩
      · exact absurd (hp ▸ hproot) hroot
      · obtain ⟨old, hold, hdescends, rfl⟩ := (nodes_reanchor_iff ht ha).1 hnode
        rw [Node.entry_asKept] at hblock
        have hanchor := hafter hdescends (Lookup.mem_of_eq_some hold) hne
        exact ⟨(ht.blocks_iff _ _).2 ⟨hproot, Or.inr ⟨hanchor, old, hold, hblock⟩⟩, hdescends⟩

/-- Moving the anchor to a later node keeps a tree sound. -/
theorem Sound.reanchor (ht : t.Sound) (ha : a ∈ t.nodes) (hslot : t.anchor.slot < a.slot) :
    (t.reanchor a).1.Sound := by
  have hnewAnchor : a ∈ (t.reanchor a).1.nodes :=
    (mem_reanchor_iff ht ha).2 ⟨ha, descends_refl t a⟩
  refine ⟨?_, ?_, ?_, ?_, ?_, ?_⟩
  · obtain ⟨old, hold⟩ := (Lookup.mem_iff_exists _ _).1 ha
    refine ⟨old.entry, (nodes_reanchor_iff ht ha).2 ⟨old, hold, descends_refl t a, ?_⟩⟩
    exact (if_pos rfl).symm
  · intro p node hnode
    obtain ⟨old, hold, -, rfl⟩ := (nodes_reanchor_iff ht ha).1 hnode
    rw [Node.entry_asKept]
    exact ht.stored p old hold
  · intro p node hnode hne
    rw [anchor_reanchor] at hne ⊢
    obtain ⟨old, hold, hdescends, rfl⟩ := (nodes_reanchor_iff ht ha).1 hnode
    have hp : p ∈ t.nodes := Lookup.mem_of_eq_some hold
    have hlt := ht.slot_lt_of_descends hp hdescends hne
    have hanchor : p ≠ t.anchor := by
      rintro rfl
      exact UInt64.lt_irrefl _ (UInt64.lt_trans hslot hlt)
    obtain ⟨q, hq, hparent, hfollows⟩ := ht.exists_parent hold hanchor
    rw [Node.asKept, if_neg hne]
    exact ⟨hlt, q, (mem_reanchor_iff ht ha).2 ⟨hq, (descends_iff_of_parent hparent hne).1 hdescends⟩,
      hfollows⟩
  · exact blocks_iff_reanchor ht ha hslot
  · -- The head falls back to the new anchor where its node is gone.
    show (if (t.sortOut a).kept.contains _ then _ else _) ∈ (t.reanchor a).1.nodes
    split
    · next hkept => exact Std.ExtTreeMap.contains_iff_mem.1 hkept
    · exact hnewAnchor
  · intro p node hnode
    obtain ⟨old, hold, -, rfl⟩ := (nodes_reanchor_iff ht ha).1 hnode
    rw [Node.entry_asKept]
    exact ht.aged p old hold

/-! ## The head and what is reported -/

theorem head_reanchor (ht : t.Sound) (ha : a ∈ t.nodes) :
    t.Descends t.head a ∧ (t.reanchor a).1.head = t.head ∨
      ¬ t.Descends t.head a ∧ (t.reanchor a).1.head = a := by
  have hkept : (t.sortOut a).kept.contains t.head = true ↔ t.Descends t.head a := by
    rw [Std.ExtTreeMap.contains_iff_mem]
    exact (mem_reanchor_iff ht ha).trans ⟨And.right, fun h => ⟨ht.head_mem, h⟩⟩
  have hhead : (t.reanchor a).1.head = if (t.sortOut a).kept.contains t.head then t.head else a := by
    show (if (t.sortOut a).kept.contains _ then _ else _) = _
    rw [(foldl_forget t _).2.1]
  rw [hhead]
  by_cases hdescends : t.Descends t.head a
  · exact Or.inl ⟨hdescends, if_pos (hkept.2 hdescends)⟩
  · exact Or.inr ⟨hdescends, if_neg (mt hkept.1 hdescends)⟩

theorem mem_lineage_iff {n : Nat} {p q : Position} :
    q ∈ t.lineage n p ↔ ∃ m, m ≤ n ∧ t.climb m p = some q := by
  induction n generalizing p with
  | zero =>
    show q ∈ [p] ↔ _
    rw [List.mem_singleton]
    constructor
    · rintro rfl
      exact ⟨0, Nat.le_refl 0, rfl⟩
    · rintro ⟨m, hm, hclimb⟩
      rw [Nat.le_zero.1 hm] at hclimb
      exact (Option.some.inj hclimb).symm
  | succ n ih =>
    unfold lineage
    rw [List.mem_cons]
    constructor
    · rintro (rfl | hlater)
      · exact ⟨0, Nat.zero_le _, rfl⟩
      · cases hparent : t.parent? p with
        | none =>
          rw [hparent] at hlater
          cases hlater
        | some r =>
          rw [hparent] at hlater
          obtain ⟨m, hm, hclimb⟩ := ih.1 hlater
          exact ⟨m + 1, Nat.succ_le_succ hm, by rw [climb_succ, hparent, Option.bind_some, hclimb]⟩
    · rintro ⟨m, hm, hclimb⟩
      cases m with
      | zero => exact Or.inl (Option.some.inj hclimb).symm
      | succ m =>
        rw [climb_succ] at hclimb
        cases hparent : t.parent? p with
        | none =>
          rw [hparent] at hclimb
          cases hclimb
        | some r =>
          rw [hparent] at hclimb
          exact Or.inr (ih.2 ⟨m, Nat.le_of_succ_le_succ hm, hclimb⟩)

-- The walk from the new anchor to the old one passes all that the new anchor descends from.
theorem Sound.mem_lineage_iff (ht : t.Sound) (ha : a ∈ t.nodes) {q : Position} :
    q ∈ t.lineage (a.slot.toNat - t.anchor.slot.toNat) a ↔ t.Descends a q := by
  rw [ForkTree.mem_lineage_iff]
  constructor
  · rintro ⟨m, -, hclimb⟩
    exact ⟨m, hclimb⟩
  · rintro ⟨m, hclimb⟩
    obtain ⟨hq, hslot⟩ := ht.climb_slot ha hclimb
    have := ht.anchor_slot_le hq
    exact ⟨m, by omega, hclimb⟩

/-- The entries reported are those on branches that do not pass the new anchor. -/
theorem mem_pruned_iff (ht : t.Sound) (ha : a ∈ t.nodes) {e : Snapshot} :
    e ∈ (t.reanchor a).2 ↔ ∃ p node, t.nodes[p]? = some node ∧ node.entry = e ∧
      ¬ t.Descends p a ∧ ¬ t.Descends a p := by
  have hdropped (item : Position × Node) : item ∈ (t.sortOut a).dropped.reverse ↔
      t.nodes[item.1]? = some item.2 ∧ ¬ t.Descends item.1 a := by
    rw [List.mem_reverse, (sortedBy_sortOut ht ha).dropped,
      ← Std.ExtTreeMap.mem_toList_iff_getElem?_eq_some]
  show e ∈ (((t.sortOut a).dropped.reverse.filter fun item =>
    !(t.lineage (a.slot.toNat - t.anchor.slot.toNat) a).contains item.1).map fun item =>
      item.2.entry) ↔ _
  simp only [List.mem_map, List.mem_filter, hdropped, Bool.not_eq_true', List.contains_eq_mem,
    decide_eq_false_iff_not, ht.mem_lineage_iff ha, Prod.exists]
  constructor
  · rintro ⟨p, node, ⟨⟨hnode, hdown⟩, hup⟩, rfl⟩
    exact ⟨p, node, hnode, rfl, hdown, hup⟩
  · rintro ⟨p, node, hnode, rfl, hdown, hup⟩
    exact ⟨p, node, ⟨⟨hnode, hdown⟩, hup⟩, rfl⟩

-- Nodes are dropped in the order in which they are sorted.
theorem exists_sublist_dropped (a : Position) (items : List (Position × Node)) (s : Sorted) :
    ∃ out : List (Position × Node), out.Sublist items ∧
      (items.foldl (Sorted.add a) s).dropped = out.reverse ++ s.dropped := by
  induction items generalizing s with
  | nil => exact ⟨[], List.Sublist.refl _, rfl⟩
  | cons item items ih =>
    obtain ⟨out, hout, hdropped⟩ := ih (s.add a item)
    rw [List.foldl_cons, hdropped]
    unfold Sorted.add
    dsimp only
    split
    · exact ⟨out, hout.cons _, rfl⟩
    split
    · exact ⟨out, hout.cons _, rfl⟩
    · exact ⟨item :: out, hout.cons_cons _, by rw [List.reverse_cons, List.append_assoc]; rfl⟩

/-- No entry is reported twice. -/
theorem nodup_pruned (ht : t.Sound) (a : Position) :
    ((t.reanchor a).2.map Snapshot.position).Nodup := by
  have hordered := Std.ExtTreeMap.ordered_keys_toList (t := t.nodes)
  obtain ⟨out, hout, hdropped⟩ := exists_sublist_dropped a t.nodes.toList ⟨∅, []⟩
  have hreverse : (t.sortOut a).dropped.reverse = out := by
    show (t.nodes.toList.foldl (Sorted.add a) ⟨∅, []⟩).dropped.reverse = out
    rw [hdropped, List.append_nil, List.reverse_reverse]
  show ((((t.sortOut a).dropped.reverse.filter _).map _).map Snapshot.position).Nodup
  rw [hreverse, List.map_map, List.Nodup, List.pairwise_map]
  -- Every entry is kept under its own position, and no two nodes under one.
  refine (hordered.sublist (List.filter_sublist.trans hout)).imp_of_mem ?_
  intro x y hx hy hlt heq
  have hstored (item : Position × Node) (hitem : item ∈ out) : item.2.entry.position = item.1 :=
    ht.stored _ _ (Std.ExtTreeMap.mem_toList_iff_getElem?_eq_some.1 (hout.subset hitem))
  have hsame : x.1 = y.1 := (hstored x (List.mem_filter.1 hx).1).symm.trans
    (heq.trans (hstored y (List.mem_filter.1 hy).1))
  rw [hsame, Std.compare_self] at hlt
  cases hlt

end BeaconHistory.ForkTree
