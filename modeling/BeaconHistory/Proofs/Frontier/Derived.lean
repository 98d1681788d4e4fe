import BeaconHistory.Proofs.Frontier.Settlement
import BeaconHistory.Proofs.Replay

/-!
# Frontier.Derived — every node is computed from its parent

An empty slot is computed from the node before it, a block from an empty slot that other blocks of the
same parent may share.  Main statement: whatever calls are made, and whichever of them put it in, the
entry of a node is what the state of its parent gives, with one slot left or with the block applied.
-/

namespace BeaconHistory

/-- `e` is the entry one slot after the state `s`, an empty one or that of a block that was taken. -/
inductive Next (taken : Block → Prop) (spec : Spec) (s : State) (e : Snapshot) : Prop where
  | empty (hempty : e.summary.isEmpty = true) (hstate : s.advanced spec (s.slot + 1) = .ok e.state)
  | block {b : Block} (hb : taken b) (hsummary : e.summary = .ofBlock b) (hslot : b.slot = s.slot + 1)
      (hstate : (Transition.applyBlock spec b).reach s = .ok e.state)

section

variable {spec : Spec} {s t : State} {b : Block}

-- A block at the next slot is applied to the state that leaving this slot gives.
theorem Transition.reach_applyBlock_of_advanced (hslot : b.slot = s.slot + 1) {pre : State}
    (hpre : s.advanced spec (s.slot + 1) = .ok pre) (h : (applyBlock spec b).reach pre = .ok t) :
    (applyBlock spec b).reach s = .ok t := by
  obtain ⟨_, hat, hheader, hroot⟩ := reach_applyBlock_eq_ok_iff.1 h
  have hsame := State.eq_of_atSlot ((State.slot_of_advanced hpre).trans hslot.symm) hat
  subst hsame
  refine reach_applyBlock_eq_ok_iff.2 ⟨pre, State.atSlot_eq_ok_iff.2 (Or.inl ?_), hheader, hroot⟩
  rw [hslot]
  exact hpre

end

namespace ForkTree

variable {t u w : ForkTree} {taken : Block → Prop} {entry : Snapshot} {tip : Position}

/-- Every node after the anchor is read with the constants of the tree, and computed from its parent. -/
def Derived (taken : Block → Prop) (t : ForkTree) : Prop :=
  ∀ (p : Position) (node : Node), t.nodes[p]? = some node → p ≠ t.anchor →
    node.entry.spec = t.spec ∧ ∃ q before, node.parent = some q ∧ t.nodes[q]? = some before ∧
      Next taken t.spec before.entry.state node.entry

theorem derived_plant (taken : Block → Prop) (spec : Spec) (anchor : Snapshot) :
    (plant spec anchor).Derived taken :=
  fun _ _ hnode hne => absurd (nodes_plant_iff.1 hnode).1.symm hne

theorem Derived.backed (h : t.Derived taken) : t.Backed taken := by
  intro p node hnode hne
  obtain ⟨-, _, _, -, -, hnext⟩ := h p node hnode hne
  cases hnext with
  | empty hempty => exact Or.inl hempty
  | block hb hsummary => exact Or.inr ⟨_, hb, hsummary⟩

/-! ## 1. Growth -/

theorem Derived.insert (h : t.Derived taken) (hfits : t.Fits entry tip) (hspec : entry.spec = t.spec)
    (hnext : ∃ before, t.nodes[tip]? = some before ∧ Next taken t.spec before.entry.state entry) :
    (t.insert entry tip).Derived taken := by
  intro p node hnode hne
  rcases nodes_insert_iff.1 hnode with ⟨-, rfl⟩ | ⟨-, hnode⟩
  · obtain ⟨before, hbefore, hnext⟩ := hnext
    exact ⟨hspec, tip, before, rfl, hfits.nodes hbefore, hnext⟩
  · obtain ⟨hspec, q, before, hparent, hbefore, hnext⟩ := h p node hnode hne
    exact ⟨hspec, q, before, hparent, hfits.nodes hbefore, hnext⟩

theorem Sprouts.next (h : t.Sprouts entry tip) (ht : t.Sound) :
    ∃ before, t.nodes[tip]? = some before ∧ Next taken t.spec before.entry.state entry := by
  obtain ⟨before, hbefore, hstate⟩ := h.state
  refine ⟨before, hbefore, .empty (h.isEmpty ht) ?_⟩
  rw [ht.slot_eq hbefore]
  exact hstate

/-- The entry after a node, with the same block, is empty and holds the state that one more slot gives. -/
theorem Sound.advanced_following (ht : t.Sound) (hderived : t.Derived taken) {before after : Node}
    (hbefore : t.nodes[tip]? = some before) (hslot : tip.slot.toNat + 1 < 2 ^ 64)
    (hafter : t.nodes[following tip]? = some after) :
    before.entry.state.advanced t.spec (following tip).slot = .ok after.entry.state := by
  obtain ⟨hne, hempty, hparent⟩ := ht.following_node (Lookup.mem_of_eq_some hbefore) hslot hafter
  obtain ⟨-, q, node, hlink, hnode, hnext⟩ := hderived _ after hafter hne
  rw [parent?_of_node hafter hlink] at hparent
  cases hparent
  rw [hbefore] at hnode
  cases hnode
  cases hnext with
  | empty _ hadvanced =>
    rw [ht.slot_eq hbefore] at hadvanced
    exact hadvanced
  | block _ hsummary =>
    rw [hsummary] at hempty
    cases hempty

-- The state that a block is applied to is itself computed from the node that the block links to.
theorem Grafts.next {b : Block} (hb : taken b) (h : t.Grafts b entry tip) (ht : t.Sound)
    (hderived : t.Derived taken) :
    ∃ before, t.nodes[tip]? = some before ∧ Next taken t.spec before.entry.state entry := by
  obtain ⟨pre, hpre, hstate⟩ := h.state
  obtain ⟨before, hbefore⟩ := (Lookup.mem_iff_exists _ _).1 h.tip_mem
  have hword := b.slot.toNat_lt
  have hslot := h.slot
  have hadvanced := ht.advanced_following hderived hbefore (by omega) hpre
  have hbSlot : b.slot = before.entry.state.slot + 1 := by
    rw [ht.slot_eq hbefore]
    apply UInt64.toNat_inj.1
    rw [Slots.toNat_add_one _ (by omega), hslot]
  have hnext : (following tip).slot = before.entry.state.slot + 1 := by
    rw [ht.slot_eq hbefore]
    rfl
  rw [hnext] at hadvanced
  exact ⟨before, hbefore,
    .block hb h.summary hbSlot (Transition.reach_applyBlock_of_advanced hbSlot hadvanced hstate)⟩

theorem Step.derived (h : Step taken t u) (ht : t.Sound) (hderived : t.Derived taken) :
    u.Derived taken := by
  cases h with
  | sprout h => exact hderived.insert (h.fits ht) h.spec (h.next ht)
  | graft hb h => exact hderived.insert (h.fits ht) h.spec (h.next hb ht hderived)
  | point h => exact hderived

theorem Steps.derived (h : Steps taken t u) (ht : t.Sound) (hderived : t.Derived taken) :
    u.Derived taken := by
  induction h with
  | refl => exact hderived
  | tail hsteps hstep ih => exact hstep.derived (Steps.sound hsteps ht) ih

/-! ## 2. Moving the anchor -/

-- A node that is left in a part has its parent left there, too, or is the anchor of the part.
theorem PartOf.derived (h : t.PartOf w) (hw : w.Sound) (hderived : w.Derived taken) :
    t.Derived taken := by
  intro p node hnode hne
  have hold := h.node_of_ne hnode hne
  obtain ⟨-, hdown⟩ := h.mem_iff.1 (Lookup.mem_of_eq_some hnode)
  have hanchor : p ≠ w.anchor := by
    rintro rfl
    have hlt := UInt64.lt_iff_toNat_lt.1 (hw.slot_lt_of_descends hw.anchor_mem hdown hne)
    have hle := hw.anchor_slot_le h.anchor_mem
    omega
  obtain ⟨hspec, q, before, hparent, hbefore, hnext⟩ := hderived p node hold hanchor
  have hdownBefore := (descends_iff_of_parent (parent?_of_node hold hparent) hne).1 hdown
  rw [h.spec]
  refine ⟨hspec, q, _, hparent, (h.nodes q _).2 ⟨before, hbefore, hdownBefore, rfl⟩, ?_⟩
  rw [Node.entry_asKept]
  exact hnext

end ForkTree

namespace Frontier

variable {σ : Type} [Sink σ] {f g : Frontier σ} {u : ForkTree} {taken : Block → Prop}

theorem Move.derived (h : Move taken f u g) (ht : f.tree.Sound) (hderived : f.tree.Derived taken) :
    g.tree.Derived taken := by
  cases h with
  | grow hsteps => exact hsteps.derived ht hderived
  | @settle _ path hgrown hpath htree =>
    have hu := hgrown.sound ht
    obtain ⟨a, -, -, hsettles⟩ := exists_settles hu hpath (prefix_accepted path f.sink)
    rw [htree]
    exact (hsettles.partOf hu).derived hu ((hgrown.steps taken).derived ht hderived)
  | broke hgrown htree => exact htree ▸ (hgrown.steps taken).derived ht hderived

/-- In any run of calls every node is computed from its parent, by the blocks that were taken. -/
theorem derived_play (calls : List Call) (ht : f.tree.Sound) (hK : CollisionFree (hashed calls f))
    (htaken : ∀ b ∈ accepted calls f, taken b) (hderived : f.tree.Derived taken) :
    (play calls f).tree.Derived taken := by
  induction calls generalizing f with
  | nil => exact hderived
  | cons c calls ih =>
    obtain ⟨htakenNow, htakenLater⟩ := List.forall_mem_append.1 htaken
    have hmove := (c.move ht hK.left).mono htakenNow
    exact ih (hmove.sound ht) hK.right htakenLater (hmove.derived ht hderived)

/-- What every run keeps: the tree is sound and computed node by node, with the constants it started
with. -/
structure Computed (spec : Spec) (t : ForkTree) : Prop where
  sound : t.Sound
  derived : t.Derived fun _ => True
  spec : t.spec = spec

theorem Computed.call {spec : Spec} (h : Computed spec f.tree) (c : Call) (hK : CollisionFree (c.hashed f)) :
    Computed spec (c.after f).tree := by
  have hmove := c.move h.sound hK
  exact ⟨hmove.sound h.sound, (hmove.mono fun _ _ => trivial).derived h.sound h.derived,
    hmove.spec.trans h.spec⟩

theorem Computed.play {spec : Spec} (h : Computed spec f.tree) (calls : List Call)
    (hK : CollisionFree (hashed calls f)) : Computed spec (Frontier.play calls f).tree := by
  induction calls generalizing f with
  | nil => exact h
  | cons c calls ih => exact ih (h.call c hK.left) hK.right

omit [Sink σ] in
theorem computed_plant (spec : Spec) (sink : σ) {anchor : Snapshot} {specs : Spec → Prop}
    (hanchor : anchor.state.Reached specs) : Computed spec (plant anchor sink spec).tree :=
  ⟨ForkTree.sound_plant spec hanchor.aged, ForkTree.derived_plant _ spec anchor, rfl⟩

end Frontier

end BeaconHistory
