import BeaconHistory.Proofs.ForkTree.Lookups
import BeaconHistory.Proofs.Frontier.Run

/-!
# Frontier.Settlement — what a finalization leaves

A finalization may add empty slots, hands over a branch, and moves the anchor to the last entry that was
taken.  Main statement: the entries that are taken are those on the way to the new anchor, the entries
that stay are those beyond it, and the slots that were added are empty and later than all others of their
block.
-/

namespace BeaconHistory

namespace ForkTree

variable {t u : ForkTree} {e : Snapshot} {p q : Position}

/-! ## 1. Slots that were added -/

theorem Sprouting.head (h : Sprouting t u) : u.head = t.head := by
  induction h with
  | none t => rfl
  | next _ _ ih => exact ih

theorem Sprouting.isEmpty_of_new (h : Sprouting t u) (ht : t.Sound) {node : Node}
    (hnode : u.nodes[p]? = some node) (hnew : p ∉ t.nodes) : node.entry.summary.isEmpty = true := by
  induction h with
  | none t => exact absurd (Lookup.mem_of_eq_some hnode) hnew
  | @next t u entry tip h rest ih =>
    have hinserted := ht.insert (h.fits ht)
    by_cases hp : p ∈ (t.insert entry tip).nodes
    · rcases mem_insert_iff.1 hp with heq | hold
      · rw [← heq, rest.nodes hinserted (nodes_insert_iff.2 (Or.inl ⟨rfl, rfl⟩))] at hnode
        cases hnode
        exact h.isEmpty ht
      · exact absurd hold hnew
    · exact ih hinserted hnode hp

/-- A slot that was added is later than all others that carry its block. -/
theorem Sprouting.slot_lt_of_new (h : Sprouting t u) (ht : t.Sound) (hp : p ∈ u.nodes) (hnew : p ∉ t.nodes)
    (hq : q ∈ t.nodes) (hroot : q.root = p.root) : q.slot < p.slot := by
  obtain ⟨origin, horigin, hle, -⟩ := (h.sound ht).exists_origin hp
  refine UInt64.not_le.1 fun hlate => hnew ?_
  -- Otherwise it would lie in the gapless run of its block.
  rw [h.blocks ht, ← hroot] at horigin
  have hmem := ht.mem_run hq horigin (UInt64.le_iff_toNat_le.2 hle) hlate
  rw [hroot] at hmem
  exact hmem

theorem Sprouting.unfinalized (h : Sprouting t u) (ht : t.Sound) (he : t.Unfinalized e) :
    u.Unfinalized e := by
  obtain ⟨p, node, hnode, hne, rfl⟩ := he
  exact ⟨p, node, h.nodes ht hnode, h.anchor ▸ hne, rfl⟩

theorem Sprouting.unfinalized_of_mem (h : Sprouting t u) (ht : t.Sound) (he : u.Unfinalized e)
    (hp : e.position ∈ t.nodes) : t.Unfinalized e := by
  obtain ⟨node, hnode, hne, heq⟩ := (h.sound ht).exists_of_unfinalized he
  obtain ⟨old, hold⟩ := (Lookup.mem_iff_exists _ _).1 hp
  have hsame : old = node := Option.some.inj ((h.nodes ht hold).symm.trans hnode)
  exact ⟨_, old, hold, h.anchor ▸ hne, hsame ▸ heq⟩

theorem Sprouting.descends_iff (h : Sprouting t u) (ht : t.Sound) (hp : p ∈ t.nodes) (a : Position) :
    u.Descends p a ↔ t.Descends p a :=
  descends_iff_of_subset ht (fun _ _ hnode => h.nodes ht hnode) hp a

-- No slot is added on the branch of the head.
theorem Sprouting.canonical_iff (h : Sprouting t u) (ht : t.Sound) :
    t.Unfinalized e ∧ t.Descends t.head e.position ↔ u.Unfinalized e ∧ u.Descends u.head e.position := by
  rw [h.head, h.descends_iff ht ht.head_mem]
  refine and_congr_left fun hdown => ⟨h.unfinalized ht, fun he => ?_⟩
  exact h.unfinalized_of_mem ht he (ht.mem_of_descends_node ht.head_mem hdown)

/-- The entries of a branch are those after the anchor that its end descends from. -/
theorem Branch.mem_iff (ht : t.Sound) {path : List Snapshot} (h : t.Branch path p) :
    e ∈ path ↔ t.Unfinalized e ∧ t.Descends p e.position := by
  constructor
  · intro he
    obtain ⟨q, node, hdescends, hnode, hne, rfl⟩ := h.exists_node he
    rw [ht.stored q node hnode]
    exact ⟨⟨q, node, hnode, hne, rfl⟩, hdescends⟩
  · rintro ⟨he, hdescends⟩
    obtain ⟨node, hnode, hne, rfl⟩ := ht.exists_of_unfinalized he
    exact ht.mem_of_descends h hdescends hnode hne

end ForkTree

namespace Frontier

open ForkTree

variable {t : ForkTree} {taken : List Snapshot} {a : Position} {e : Snapshot}

/-! ## 2. Where the anchor settles -/

theorem Settles.mem (h : Settles t taken a) (ht : t.Sound) : a ∈ t.nodes := by
  cases h with
  | stays => exact ht.anchor_mem
  | moves hnode => exact Lookup.mem_of_eq_some hnode

/-- The entries that stay are those that descend from the new anchor. -/
theorem Settles.unfinalized_iff (h : Settles t taken a) (ht : t.Sound) :
    (settled taken t).Unfinalized e ↔ t.Unfinalized e ∧ t.Descends e.position a ∧ e.position ≠ a := by
  have ha := h.mem ht
  cases h with
  | stays _ htree =>
    rw [htree]
    refine ⟨fun he => ?_, And.left⟩
    obtain ⟨node, hnode, hne, -⟩ := ht.exists_of_unfinalized he
    exact ⟨he, ht.descends_anchor (Lookup.mem_of_eq_some hnode), hne⟩
  | moves _ _ hslot htree =>
    rw [htree]
    constructor
    · rintro ⟨p, node, hnode, hne, rfl⟩
      obtain ⟨old, hold, hdescends, rfl⟩ := (nodes_reanchor_iff ht ha).1 hnode
      have hlt := ht.slot_lt_of_descends (Lookup.mem_of_eq_some hold) hdescends hne
      rw [Node.entry_asKept, ht.stored p old hold]
      refine ⟨⟨p, old, hold, ?_, rfl⟩, hdescends, hne⟩
      rintro rfl
      exact UInt64.lt_irrefl _ (UInt64.lt_trans hslot hlt)
    · rintro ⟨he, hdescends, hne⟩
      obtain ⟨node, hnode, -, rfl⟩ := ht.exists_of_unfinalized he
      exact ⟨_, _, (nodes_reanchor_iff ht ha).2 ⟨node, hnode, hdescends, rfl⟩, hne,
        Node.entry_asKept _ _ _⟩

theorem Settles.partOf (h : Settles t taken a) (ht : t.Sound) : (settled taken t).PartOf t := by
  have ha := h.mem ht
  cases h with
  | stays _ htree =>
    rw [htree]
    exact .refl ht
  | moves _ _ _ htree =>
    rw [htree]
    exact (PartOf.refl ht).reanchor ht ht ha

-- The head stays if it descends from the new anchor, and is the anchor if not.
theorem Settles.head (h : Settles t taken a) (ht : t.Sound) :
    t.Descends t.head a ∧ (settled taken t).head = t.head ∨
      ¬ t.Descends t.head a ∧ (settled taken t).head = a := by
  have ha := h.mem ht
  cases h with
  | stays _ htree =>
    rw [htree]
    exact Or.inl ⟨ht.descends_anchor ht.head_mem, rfl⟩
  | moves _ _ _ htree =>
    rw [htree]
    exact head_reanchor ht ha

/-! ## 3. Finalizations -/

variable {σ : Type} [Sink σ] {f : Frontier σ}

-- The calls that finalize.
def Call.finalizes : Call → Bool
  | finalize _ | finalizeCheckpoint _ => true
  | _ => false

omit [Sink σ] in
-- Only the finalization of a checkpoint adds slots.
theorem Call.eq_of_grown (c : Call) (hc : c.finalizes = true) (hopen : f.poisoned = false) {p : Position}
    (hp : p ∈ (c.base f).nodes) (hnew : p ∉ f.tree.nodes) : ∃ k, c = .finalizeCheckpoint k := by
  rw [c.base_of_open hopen] at hp
  cases c with
  | addBlock b => cases hc
  | setHead root => cases hc
  | finalize target => exact absurd hp hnew
  | finalizeCheckpoint k => exact ⟨k, rfl⟩

/-- A finalization adds empty slots and settles, unless it breaks off. -/
theorem Call.settlement (c : Call) (hc : c.finalizes = true) (ht : f.tree.Sound)
    (hK : CollisionFree (c.hashed f)) (hopen : f.poisoned = false)
    (hstays : (c.after f).poisoned = false) :
    Sprouting f.tree (c.base f) ∧ ∃ target path, Settlement f (c.base f) target path (c.after f) := by
  rw [c.base_of_open hopen]
  rw [c.hashed_of_open hopen] at hK
  cases c with
  | addBlock b => cases hc
  | setHead root => cases hc
  | finalize target =>
    have hfinalized := finalized_finalize target ht hopen
    refine ⟨.none f.tree, target, ?_⟩
    rcases hfinalized.settlement (.none f.tree) (fun _ => rfl) ht hopen with hsettles | ⟨-, hbroke, -⟩
    · exact hsettles
    · exact absurd (hbroke.symm.trans hstays) (by decide)
  | finalizeCheckpoint c =>
    have hgrown := sprouting_grown c ht hK.right
    have hfinalized := finalized_finalizeCheckpoint c ht hopen hK.right
    refine ⟨hgrown, checkpointPosition f.tree.spec c, ?_⟩
    rcases hfinalized.settlement hgrown (fun hslot => if_pos hslot) ht hopen with hsettles | ⟨-, hbroke, -⟩
    · exact hsettles
    · exact absurd (hbroke.symm.trans hstays) (by decide)

end Frontier

end BeaconHistory
