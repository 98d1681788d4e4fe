import BeaconHistory.Proofs.ForkTree.Index
import BeaconHistory.Proofs.Slots

/-!
# ForkTree.Lookups — what a tree serves

A tree serves the entries of its nodes, the anchor left out.  Main statements: each lookup finds exactly
the entry it is named for, whatever indexes and walks it takes; the entries of a block follow each other
without a gap, so the last step of a run is the latest of them.
-/

namespace BeaconHistory.ForkTree

variable {t : ForkTree} {e : Snapshot} {root : Root} {slot : UInt64}

/-- `e` is the entry of a node after the anchor. -/
def Unfinalized (t : ForkTree) (e : Snapshot) : Prop :=
  ∃ p node, t.nodes[p]? = some node ∧ p ≠ t.anchor ∧ node.entry = e

namespace Sound

/-! ## 1. By position, state and block -/

theorem exists_of_unfinalized (ht : t.Sound) (h : t.Unfinalized e) :
    ∃ node, t.nodes[e.position]? = some node ∧ e.position ≠ t.anchor ∧ node.entry = e := by
  obtain ⟨p, node, hnode, hne, rfl⟩ := h
  rw [ht.stored p node hnode]
  exact ⟨node, hnode, hne, rfl⟩

theorem anchor_slot_lt (ht : t.Sound) (h : t.Unfinalized e) : t.anchor.slot < e.summary.slot := by
  obtain ⟨node, hnode, hne, -⟩ := ht.exists_of_unfinalized h
  exact (ht.linked _ node hnode hne).1

theorem unfinalized_unique (ht : t.Sound) {e' : Snapshot} (h : t.Unfinalized e) (h' : t.Unfinalized e')
    (hposition : e.position = e'.position) : e = e' := by
  obtain ⟨node, hnode, -, rfl⟩ := ht.exists_of_unfinalized h
  obtain ⟨node', hnode', -, rfl⟩ := ht.exists_of_unfinalized h'
  rw [hposition, hnode'] at hnode
  rw [Option.some.inj hnode]

theorem unfinalized?_eq_some_iff (ht : t.Sound) {p : Position} :
    t.unfinalized? p = some e ↔ t.Unfinalized e ∧ e.position = p := by
  unfold unfinalized? snapshot?
  constructor
  · intro h
    split at h
    · next hslot =>
      obtain ⟨node, hnode, rfl⟩ := Option.map_eq_some_iff.1 h
      refine ⟨⟨p, node, hnode, ?_, rfl⟩, ht.stored p node hnode⟩
      rintro rfl
      exact UInt64.lt_irrefl _ hslot
    · cases h
  · rintro ⟨hheld, rfl⟩
    obtain ⟨node, hnode, -, rfl⟩ := ht.exists_of_unfinalized hheld
    have hlt : t.anchor.slot < node.entry.position.slot := ht.anchor_slot_lt hheld
    rw [if_pos hlt, hnode]
    rfl

theorem byStateRoot?_eq_some_iff (ht : t.Sound) (hindexed : t.Indexed) :
    t.byStateRoot? root = some e ↔ t.Unfinalized e ∧ e.summary.stateRoot = root := by
  unfold byStateRoot?
  rw [Option.bind_eq_some_iff]
  simp only [hindexed root, ht.unfinalized?_eq_some_iff]
  constructor
  · rintro ⟨p, ⟨node, hnode, hroot⟩, hheld, rfl⟩
    obtain ⟨node', hnode', -, rfl⟩ := ht.exists_of_unfinalized hheld
    rw [hnode'] at hnode
    cases hnode
    exact ⟨hheld, hroot⟩
  · rintro ⟨hheld, hroot⟩
    obtain ⟨node, hnode, -, rfl⟩ := ht.exists_of_unfinalized hheld
    exact ⟨_, ⟨node, hnode, hroot⟩, hheld, rfl⟩

theorem block?_eq_some_iff_unfinalized (ht : t.Sound) :
    t.block? root = some e ↔
      t.Unfinalized e ∧ e.summary.blockRoot = root ∧ e.summary.isEmpty = false := by
  rw [ht.block?_eq_some_iff]
  simp only [ht.blocks_iff]
  constructor
  · rintro ⟨p, node, ⟨hroot, hanchor | ⟨-, node', hnode', hblock⟩⟩, hne, hnode, rfl⟩
    · exact absurd hanchor hne
    · rw [hnode] at hnode'
      cases hnode'
      have hstored : node.entry.summary.blockRoot = p.root :=
        congrArg Position.root (ht.stored p node hnode)
      exact ⟨⟨p, node, hnode, hne, rfl⟩, hstored.trans hroot, hblock⟩
  · rintro ⟨⟨p, node, hnode, hne, rfl⟩, hroot, hblock⟩
    have hstored : node.entry.summary.blockRoot = p.root :=
      congrArg Position.root (ht.stored p node hnode)
    exact ⟨p, node, ⟨hstored.symm.trans hroot, Or.inr ⟨hne, node, hnode, hblock⟩⟩, hne, hnode, rfl⟩

end Sound

/-! ## 2. The run of a block -/

theorem lastOfRun_eq (t : ForkTree) (n : Nat) (p : Position) :
    t.lastOfRun n p = ⟨Slots.last (fun s => t.nodes.contains ⟨s, p.root⟩) n p.slot, p.root⟩ := by
  induction n generalizing p with
  | zero => rfl
  | succ n ih =>
    unfold lastOfRun Slots.last
    by_cases hnext : t.nodes.contains (following p) = true
    · rw [if_pos hnext, ih]
      exact (congrArg (Position.mk · p.root) (if_pos hnext)).symm
    · rw [if_neg hnext]
      exact (congrArg (Position.mk · p.root) (if_neg hnext)).symm

/-- The last step of a run up to `slot` is a node, and no other node of the block is later. -/
theorem Sound.lastOfRun_spec (ht : t.Sound) {origin : Position} (horigin : t.blocks[root]? = some origin)
    (hslot : origin.slot ≤ slot) {q : Position}
    (hq : t.lastOfRun (slot.toNat - origin.slot.toNat) origin = q) :
    q ∈ t.nodes ∧ q.root = root ∧ q.slot ≤ slot ∧
      ∀ p, p ∈ t.nodes → p.root = root → p.slot ≤ slot → p.slot ≤ q.slot := by
  have hroot := ht.root_of_blocks horigin
  have hle := UInt64.le_iff_toNat_le.1 hslot
  have hword := slot.toNat_lt
  rw [lastOfRun_eq, hroot] at hq
  subst hq
  have hreach : origin.slot.toNat + (slot.toNat - origin.slot.toNat) < 2 ^ 64 := by omega
  have hbounds := Slots.last_bounds (fun s => t.nodes.contains ⟨s, root⟩) hreach
  have hmem : (⟨origin.slot, root⟩ : Position) ∈ t.nodes := by
    rw [← hroot]
    exact ht.mem_of_blocks horigin
  have hlast := Slots.held_last (fun s => t.nodes.contains ⟨s, root⟩) (slot.toNat - origin.slot.toNat)
    (Std.ExtTreeMap.contains_iff_mem.2 hmem)
  refine ⟨?_, rfl, UInt64.le_iff_toNat_le.2 (by dsimp only; omega), fun p hp hproot hpslot => ?_⟩
  · exact Std.ExtTreeMap.contains_iff_mem.1 hlast
  · subst hproot
    rw [UInt64.le_iff_toNat_le] at hpslot ⊢
    refine Slots.le_last hreach ?_ (Std.ExtTreeMap.contains_iff_mem.2 hp) (by omega)
    intro s m hs hfrom hto
    have hmem := Std.ExtTreeMap.contains_iff_mem.1 hs
    exact Std.ExtTreeMap.contains_iff_mem.2 (ht.mem_run hmem horigin hfrom hto)

-- An entry of the block is no earlier than the position indexed for it.
theorem Sound.origin_slot_le (ht : t.Sound) {p origin : Position} (hp : p ∈ t.nodes)
    (horigin : t.blocks[p.root]? = some origin) : origin.slot ≤ p.slot := by
  obtain ⟨origin', horigin', hle, -⟩ := ht.exists_origin hp
  rw [horigin] at horigin'
  cases horigin'
  exact UInt64.le_iff_toNat_le.2 hle

theorem Sound.exists_closest (ht : t.Sound) (h : t.Unfinalized e) (hroot : e.summary.blockRoot = root)
    (hslot : e.summary.slot ≤ slot) : ∃ latest, t.closest root slot = .ok latest := by
  obtain ⟨node, hnode, -, rfl⟩ := ht.exists_of_unfinalized h
  have hp : node.entry.position ∈ t.nodes := Lookup.mem_of_eq_some hnode
  obtain ⟨origin, horigin, -, -⟩ := ht.exists_origin hp
  have hfrom := UInt64.le_trans (ht.origin_slot_le hp horigin) hslot
  rw [show node.entry.position.root = root from hroot] at horigin
  obtain ⟨hmem, -, -, hlatest⟩ := ht.lastOfRun_spec horigin hfrom rfl
  have hlate := hlatest _ hp hroot hslot
  obtain ⟨last, hlast⟩ := (Lookup.mem_iff_exists _ _).1 hmem
  -- The run ends no earlier than this entry, so after the anchor.
  have hserved : t.unfinalized? (t.lastOfRun (slot.toNat - origin.slot.toNat) origin) =
      some last.entry := by
    refine ht.unfinalized?_eq_some_iff.2 ⟨⟨_, last, hlast, fun heq => ?_, rfl⟩, ht.stored _ last hlast⟩
    rw [heq] at hlate
    exact UInt64.not_le.2 (ht.anchor_slot_lt h) hlate
  unfold closest
  rw [horigin]
  dsimp only
  rw [if_neg (UInt64.not_lt.2 hfrom), hserved]
  exact ⟨_, rfl⟩

theorem Sound.latest_of_closest (ht : t.Sound) (h : t.closest root slot = .ok e) :
    Latest t.Unfinalized Snapshot.summary root slot e := by
  unfold closest at h
  cases horigin : t.blocks[root]? with
  | none =>
    rw [horigin] at h
    cases h
  | some origin =>
    rw [horigin] at h
    dsimp only at h
    split at h
    · cases h
    next hslot =>
    split at h
    · next entry hentry =>
      cases h
      obtain ⟨hheld, hposition⟩ := ht.unfinalized?_eq_some_iff.1 hentry
      obtain ⟨-, hroot, hle, hlatest⟩ :=
        ht.lastOfRun_spec horigin (UInt64.not_lt.1 hslot) hposition.symm
      refine ⟨hheld, hroot, hle, fun e' he' hroot' hle' => ?_⟩
      obtain ⟨node, hnode, -, -⟩ := ht.exists_of_unfinalized he'
      exact hlatest e'.position (Lookup.mem_of_eq_some hnode) hroot' hle'
    · cases h

/-! ## 3. The branch of the head -/

theorem Sound.canonical?_eq_some_iff (ht : t.Sound) :
    t.canonical? slot = some e ↔
      t.Unfinalized e ∧ e.summary.slot = slot ∧ t.Descends t.head e.position := by
  unfold canonical?
  constructor
  · intro h
    split at h
    · cases h
    next hslot =>
    obtain ⟨hlate, hhead⟩ := not_or.1 hslot
    obtain ⟨p, hclimb, hentry⟩ := Option.bind_eq_some_iff.1 h
    obtain ⟨node, hnode, rfl⟩ := Option.map_eq_some_iff.1 hentry
    have hstored := ht.stored p node hnode
    have hp := (ht.climb_slot ht.head_mem hclimb).2
    have hpslot : p.slot = slot := by
      rw [UInt64.not_lt, UInt64.le_iff_toNat_le] at hhead
      exact UInt64.toNat_inj.1 (by omega)
    refine ⟨⟨p, node, hnode, ?_, rfl⟩, ?_, hstored.symm ▸ ⟨_, hclimb⟩⟩
    · rintro rfl
      exact hlate (UInt64.le_of_eq hpslot.symm)
    · exact (congrArg Position.slot hstored).trans hpslot
  · rintro ⟨hheld, rfl, hdescends⟩
    obtain ⟨node, hnode, -, rfl⟩ := ht.exists_of_unfinalized hheld
    obtain ⟨hle, hclimb⟩ := (ht.descends_iff ht.head_mem).1 hdescends
    have hlt := ht.anchor_slot_lt hheld
    rw [if_neg, Option.bind_eq_some_iff]
    · exact ⟨_, hclimb, snapshot?_of_node hnode⟩
    · rintro (hslot | hslot)
      · exact UInt64.not_le.2 hlt hslot
      · exact UInt64.not_le.2 hslot (UInt64.le_iff_toNat_le.2 hle)

theorem unfinalized_of_mem_backFrom {n : Nat} {p : Position} {later : List Snapshot}
    (h : e ∈ t.backFrom n p later) : e ∈ later ∨ t.Unfinalized e := by
  induction n generalizing p later with
  | zero => exact Or.inl h
  | succ n ih =>
    unfold backFrom at h
    split at h
    · exact Or.inl h
    next hne =>
    split at h
    · exact Or.inl h
    next node hnode =>
    -- The entry in front is that of a node after the anchor.
    have hcons {entries : List Snapshot} (hmem : e ∈ node.entry :: entries) :
        e ∈ entries ∨ t.Unfinalized e := by
      rcases List.mem_cons.1 hmem with heq | hmem
      · exact Or.inr ⟨p, node, hnode, hne, heq.symm⟩
      · exact Or.inl hmem
    split at h
    · exact hcons h
    · exact (ih h).elim hcons Or.inr

theorem unfinalized_of_mem_canonicalBranch (h : e ∈ t.canonicalBranch) : t.Unfinalized e :=
  (unfinalized_of_mem_backFrom h).resolve_left fun hnil => (by cases hnil)

theorem Sound.branch_backFrom (ht : t.Sound) {p : Position} (hp : p ∈ t.nodes) (later : List Snapshot) :
    ∃ front, t.Branch front p ∧
      t.backFrom (p.slot.toNat - t.anchor.slot.toNat) p later = front ++ later := by
  generalize hn : p.slot.toNat - t.anchor.slot.toNat = n
  induction n generalizing p later with
  | zero =>
    rw [ht.eq_anchor_of_slot_le hp (by omega)]
    exact ⟨[], .anchor, rfl⟩
  | succ n ih =>
    have hne : p ≠ t.anchor := by
      rintro rfl
      omega
    obtain ⟨node, hnode⟩ := (Lookup.mem_iff_exists _ _).1 hp
    obtain ⟨q, hq, -, hfollows⟩ := ht.exists_parent hnode hne
    have hslot := hfollows.slot
    obtain ⟨front, hfront, hback⟩ := ih hq (node.entry :: later) (by omega)
    refine ⟨front ++ [node.entry], .child hfront hnode hne hfollows.parent, ?_⟩
    unfold backFrom
    rw [if_neg hne, hnode]
    dsimp only
    rw [hfollows.parent]
    dsimp only
    rw [hback, List.append_assoc]
    rfl

/-- What is collected from the head back is the branch of the head. -/
theorem Sound.branch_canonical (ht : t.Sound) : t.Branch t.canonicalBranch t.head := by
  obtain ⟨front, hfront, hback⟩ := ht.branch_backFrom ht.head_mem []
  rw [List.append_nil] at hback
  unfold canonicalBranch
  rw [hback]
  exact hfront

end BeaconHistory.ForkTree
