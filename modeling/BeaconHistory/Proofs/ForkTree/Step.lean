import BeaconHistory.Proofs.Chronicle
import BeaconHistory.Proofs.ForkTree.Insert
import BeaconHistory.Proofs.Slots

/-!
# ForkTree.Step — the elementary changes of a tree in use

As long as the anchor stays, whatever a call does to a tree is a sequence of three kinds of steps, and
what is claimed of trees in use is proved for these.  Main statement: every step keeps a tree sound.
-/

namespace BeaconHistory.ForkTree

variable {t : ForkTree} {entry : Snapshot} {tip : Position} {b : Block}

theorem toNat_slot_following {p : Position} (h : p.slot.toNat + 1 < 2 ^ 64) :
    (following p).slot.toNat = p.slot.toNat + 1 :=
  Slots.toNat_add_one p.slot h

theorem following_eq {p : Position} {s : UInt64} (h : p.slot.toNat + 1 = s.toNat) :
    following p = ⟨s, p.root⟩ := by
  have hword := s.toNat_lt
  have hslot : p.slot + 1 = s := UInt64.toNat_inj.1 ((Slots.toNat_add_one p.slot (by omega)).trans h)
  rw [← hslot]
  rfl

/-- `entry` is the empty slot after the node at `tip`, and is no node yet. -/
structure Sprouts (t : ForkTree) (entry : Snapshot) (tip : Position) : Prop where
  state : ∃ node, t.nodes[tip]? = some node ∧
    node.entry.state.advanced t.spec (following tip).slot = .ok entry.state
  spec : entry.spec = t.spec
  slot : tip.slot.toNat + 1 < 2 ^ 64
  fresh : following tip ∉ t.nodes
  position : entry.position = following tip

/-- `entry` is block `b` applied to the empty slot after the node at `tip`, and is not indexed yet. -/
structure Grafts (t : ForkTree) (b : Block) (entry : Snapshot) (tip : Position) : Prop where
  state : ∃ node, t.nodes[following tip]? = some node ∧
    (Transition.applyBlock t.spec b).reach node.entry.state = .ok entry.state
  spec : entry.spec = t.spec
  tip_mem : tip ∈ t.nodes
  slot : tip.slot.toNat + 1 = b.slot.toNat
  root : tip.root = b.parentRoot
  fresh : t.blocks[b.root]? = none

/-- An elementary change; `accepted` tells which blocks may be put in. -/
inductive Step (accepted : Block → Prop) (t : ForkTree) : ForkTree → Prop where
  | sprout {entry : Snapshot} {tip : Position} (h : t.Sprouts entry tip) :
      Step accepted t (t.insert entry tip)
  | graft {b : Block} {entry : Snapshot} {tip : Position} (hb : accepted b)
      (h : t.Grafts b entry tip) : Step accepted t (t.insert entry tip)
  | point {root : Root} {p : Position} (h : t.blocks[root]? = some p) :
      Step accepted t { t with head := p }

theorem Step.mono {accepted accepted' : Block → Prop} (hsub : ∀ b, accepted b → accepted' b)
    {u : ForkTree} (h : Step accepted t u) : Step accepted' t u := by
  cases h with
  | sprout h => exact .sprout h
  | graft hb h => exact .graft (hsub _ hb) h
  | point h => exact .point h

/-! ## 1. Empty slots -/

theorem Sprouts.isEmpty (h : t.Sprouts entry tip) (ht : t.Sound) : entry.summary.isEmpty = true := by
  obtain ⟨node, hnode, hstate⟩ := h.state
  rw [entry.summary_eq, Summary.isEmpty_ofState, (ht.aged tip node hnode).not_hasBlockAtSlot hstate]
  rfl

theorem Sprouts.fits (h : t.Sprouts entry tip) (ht : t.Sound) : t.Fits entry tip := by
  have hempty := h.isEmpty ht
  obtain ⟨node, hnode, hstate⟩ := h.state
  refine ⟨?_, ?_, ?_, ?_, (ht.aged tip node hnode).advanced hstate, ?_⟩
  · rw [h.position]
    exact h.fresh
  · exact Lookup.mem_of_eq_some hnode
  · rw [h.position, toNat_slot_following h.slot]
  · rw [Summary.linksTo, if_pos hempty]
    exact (congrArg Position.root h.position).symm
  · intro hblock
    rw [hempty] at hblock
    cases hblock

theorem Sprouts.blocks_insert (h : t.Sprouts entry tip) (ht : t.Sound) :
    (t.insert entry tip).blocks = t.blocks := by
  unfold insert
  exact if_pos (h.isEmpty ht)

/-! ## 2. Blocks -/

theorem Grafts.summary (h : t.Grafts b entry tip) : entry.summary = .ofBlock b := by
  obtain ⟨node, -, hstate⟩ := h.state
  rw [entry.summary_eq]
  exact Transition.summary_of_applyBlock hstate

theorem Grafts.position (h : t.Grafts b entry tip) : entry.position = ⟨b.slot, b.root⟩ :=
  congrArg Summary.position h.summary

theorem Grafts.fits (h : t.Grafts b entry tip) (ht : t.Sound) : t.Fits entry tip := by
  obtain ⟨node, -, hstate⟩ := h.state
  refine ⟨?_, h.tip_mem, ?_, ?_, State.aged_of_applyBlock hstate, ?_⟩
  · -- A node with the root of the block would have an indexed origin.
    intro hmem
    obtain ⟨origin, hindex, -, -⟩ := ht.exists_origin hmem
    rw [h.position, h.fresh] at hindex
    cases hindex
  · rw [h.position]
    exact h.slot
  · rw [h.summary]
    exact h.root
  · intro _
    rw [h.position]
    exact h.fresh

/-! ## 3. All steps -/

theorem Sound.point (ht : t.Sound) {root : Root} {p : Position} (h : t.blocks[root]? = some p) :
    { t with head := p }.Sound :=
  ⟨ht.anchor_node, ht.stored, ht.linked, ht.blocks_iff, ht.mem_of_blocks h, ht.aged⟩

theorem Step.sound {accepted : Block → Prop} {u : ForkTree} (h : Step accepted t u) (ht : t.Sound) :
    u.Sound := by
  cases h with
  | sprout h => exact ht.insert (h.fits ht)
  | graft _ h => exact ht.insert (h.fits ht)
  | point h => exact ht.point h

theorem Step.spec {accepted : Block → Prop} {u : ForkTree} (h : Step accepted t u) :
    u.spec = t.spec := by
  cases h <;> rfl

theorem Step.anchor {accepted : Block → Prop} {u : ForkTree} (h : Step accepted t u) :
    u.anchor = t.anchor := by
  cases h <;> rfl

def Steps (accepted : Block → Prop) : ForkTree → ForkTree → Prop :=
  Relation.ReflTransGen (Step accepted)

theorem Steps.sound {accepted : Block → Prop} {u : ForkTree} (h : Steps accepted t u)
    (ht : t.Sound) : u.Sound := by
  induction h with
  | refl => exact ht
  | tail _ hstep ih => exact hstep.sound ih

theorem Steps.spec {accepted : Block → Prop} {u : ForkTree} (h : Steps accepted t u) :
    u.spec = t.spec := by
  induction h with
  | refl => rfl
  | tail _ hstep ih => rw [hstep.spec, ih]

theorem Steps.anchor {accepted : Block → Prop} {u : ForkTree} (h : Steps accepted t u) :
    u.anchor = t.anchor := by
  induction h with
  | refl => rfl
  | tail _ hstep ih => rw [hstep.anchor, ih]

theorem Steps.mono {accepted accepted' : Block → Prop} (hsub : ∀ b, accepted b → accepted' b)
    {u : ForkTree} (h : Steps accepted t u) : Steps accepted' t u :=
  Relation.ReflTransGen.mono (fun _ _ hstep => Step.mono hsub hstep) _ _ h

/-! ## 4. Nodes stay, and new ones are backed -/

theorem Fits.nodes (h : t.Fits entry tip) {p : Position} {node : Node} (hnode : t.nodes[p]? = some node) :
    (t.insert entry tip).nodes[p]? = some node := by
  have hne : p ≠ entry.position := fun heq =>
    h.fresh (heq ▸ Lookup.mem_of_eq_some hnode)
  exact nodes_insert_iff.2 (Or.inr ⟨hne, hnode⟩)

theorem Step.nodes {accepted : Block → Prop} {u : ForkTree} (h : Step accepted t u) (ht : t.Sound)
    {p : Position} {node : Node} (hnode : t.nodes[p]? = some node) : u.nodes[p]? = some node := by
  cases h with
  | sprout h => exact (h.fits ht).nodes hnode
  | graft _ h => exact (h.fits ht).nodes hnode
  | point h => exact hnode

theorem Steps.nodes {accepted : Block → Prop} {u : ForkTree} (h : Steps accepted t u) (ht : t.Sound)
    {p : Position} {node : Node} (hnode : t.nodes[p]? = some node) : u.nodes[p]? = some node := by
  induction h with
  | refl => exact hnode
  | tail hsteps hstep ih => exact hstep.nodes (Steps.sound hsteps ht) ih

/-- Every node after the anchor is an empty slot or an accepted block. -/
def Backed (accepted : Block → Prop) (t : ForkTree) : Prop :=
  ∀ (p : Position) (node : Node), t.nodes[p]? = some node → p ≠ t.anchor →
    node.entry.summary.Backed accepted

-- A block after the anchor has another root than the one that the anchor carries.
theorem Backed.foreign {accepted : Block → Prop} (h : t.Backed accepted) (ht : t.Sound) :
    t.Backed fun b => accepted b ∧ b.root ≠ t.anchor.root := by
  intro p node hnode hne
  cases hempty : node.entry.summary.isEmpty with
  | true => exact Or.inl hempty
  | false =>
    obtain ⟨b, hb, hsummary⟩ := (h p node hnode hne).resolve_left (by rw [hempty]; decide)
    refine Or.inr ⟨b, ⟨hb, fun hroot => hne ?_⟩, hsummary⟩
    have hcarried : p.root = b.root := by
      rw [← ht.stored p node hnode]
      exact congrArg Summary.blockRoot hsummary
    -- The root leads to the block and to the anchor.
    have hindex := (ht.blocks_iff p.root p).2 ⟨rfl, Or.inr ⟨hne, node, hnode, hempty⟩⟩
    rw [hcarried, hroot, (ht.blocks_iff _ _).2 ⟨rfl, Or.inl rfl⟩] at hindex
    exact (Option.some.inj hindex).symm

theorem Backed.insert {accepted : Block → Prop} (h : t.Backed accepted)
    (hentry : entry.summary.Backed accepted) : (t.insert entry tip).Backed accepted := by
  intro p node hnode hne
  rcases nodes_insert_iff.1 hnode with ⟨-, rfl⟩ | ⟨-, hnode⟩
  · exact hentry
  · exact h p node hnode hne

theorem Step.backed {accepted : Block → Prop} {u : ForkTree} (h : Step accepted t u) (ht : t.Sound)
    (hbacked : t.Backed accepted) : u.Backed accepted := by
  cases h with
  | sprout h => exact hbacked.insert (Or.inl (h.isEmpty ht))
  | @graft b entry tip hb h => exact hbacked.insert (Or.inr ⟨b, hb, h.summary⟩)
  | point h => exact hbacked

theorem Steps.backed {accepted : Block → Prop} {u : ForkTree} (h : Steps accepted t u) (ht : t.Sound)
    (hbacked : t.Backed accepted) : u.Backed accepted := by
  induction h with
  | refl => exact hbacked
  | tail hsteps hstep ih => exact hstep.backed (Steps.sound hsteps ht) ih

end BeaconHistory.ForkTree
