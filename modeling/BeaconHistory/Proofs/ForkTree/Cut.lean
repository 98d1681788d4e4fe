import BeaconHistory.Proofs.ForkTree.Index
import BeaconHistory.Proofs.ForkTree.Part

/-!
# ForkTree.Cut — a tree is determined by its anchor

Moving the anchor changes the nodes, both indexes and the head in one pass.  Main statement: what is left
depends on the tree that was there and on the new anchor alone, not on the anchors in between.
-/

namespace BeaconHistory.ForkTree

variable {t u w : ForkTree}

/-- `t` is all of what `w` has at and below the anchor of `t`. -/
structure Cut (t w : ForkTree) : Prop where
  sound : t.Sound
  indexed : t.Indexed
  part : t.PartOf w
  -- The head is that of `w` as long as it descends from the anchor, and the anchor otherwise.
  head : w.Descends w.head t.anchor ∧ t.head = w.head ∨
    ¬ w.Descends w.head t.anchor ∧ t.head = t.anchor

namespace Cut

theorem refl (ht : t.Sound) (hindexed : t.Indexed) : t.Cut t :=
  ⟨ht, hindexed, .refl ht, Or.inl ⟨ht.descends_anchor ht.head_mem, rfl⟩⟩

/-- Two cuts at one anchor are the same tree. -/
theorem eq (h : t.Cut w) (h' : u.Cut w) (hanchor : t.anchor = u.anchor) : t = u := by
  have hnodes := h.part.nodes_eq h'.part hanchor
  have hhead : t.head = u.head := by
    have hhead' := h'.head
    rw [← hanchor] at hhead'
    rcases h.head with ⟨hdown, heq⟩ | ⟨hnot, heq⟩
    · rw [heq, (hhead'.resolve_right fun hother => hother.1 hdown).2]
    · rw [heq, (hhead'.resolve_left fun hother => hnot hother.1).2]
  exact h.sound.eq_of_nodes h'.sound h.indexed h'.indexed (h.part.spec.trans h'.part.spec.symm) hanchor
    hhead hnodes

theorem hashed (h : t.Cut w) : ∀ x ∈ t.hashed, x ∈ w.hashed := by
  intro x hx
  obtain ⟨⟨p, node⟩, hitem, hx⟩ := List.mem_flatMap.1 hx
  obtain ⟨old, hold, hentry⟩ :=
    h.part.exists_node (Std.ExtTreeMap.mem_toList_iff_getElem?_eq_some.1 hitem)
  exact mem_hashed_of_node hold (hentry ▸ hx)

/-- Moving the anchor of a cut gives a cut. -/
theorem reanchor (h : t.Cut w) (hw : w.Sound) (hK : CollisionFree w.hashed) {a : Position}
    (ha : a ∈ t.nodes) (hslot : t.anchor.slot < a.slot) : (t.reanchor a).1.Cut w := by
  refine ⟨h.sound.reanchor ha hslot, h.indexed.reanchor h.sound hK h.hashed ha,
    h.part.reanchor h.sound hw ha, ?_⟩
  have haDown := (h.part.mem_iff.1 ha).2
  have hhead := head_reanchor h.sound ha
  rw [h.part.descends_iff h.sound hw h.sound.head_mem, anchor_reanchor] at *
  rcases h.head with ⟨-, heq⟩ | ⟨hnot, heq⟩
  · rw [heq] at hhead
    rcases hhead with ⟨⟨hdown, -⟩, hhead⟩ | ⟨hnot, hhead⟩
    · exact Or.inl ⟨hdown, hhead⟩
    · exact Or.inr ⟨fun hdown => hnot ⟨hdown, ha⟩, hhead⟩
  · -- The head fell back before, to an anchor that is earlier than the new one.
    rw [heq] at hhead
    have hbelow : ¬ w.Descends w.head a := fun hdown => hnot (hdown.trans haDown)
    rcases hhead with ⟨⟨hdown, -⟩, -⟩ | ⟨-, hhead⟩
    · have hle := hw.slot_le_of_descends h.part.anchor_mem hdown
      rw [UInt64.lt_iff_toNat_lt] at hslot
      omega
    · exact Or.inr ⟨hbelow, hhead⟩

end Cut

end BeaconHistory.ForkTree
