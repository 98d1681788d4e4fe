import BeaconHistory.Proofs.ForkTree.Growing
import BeaconHistory.Proofs.ForkTree.Reanchor

/-!
# ForkTree.Part — a tree as what is left of a larger one

Moving the anchor drops what does not descend from it.  So a tree in use is the part below its anchor of
the tree that it would be if the anchor had never moved.  Main statements: when the part grows, the
whole grows by the same nodes, so what was dropped never comes back; and when the anchor moves, what
stays is again a part of the whole.
-/

namespace BeaconHistory.ForkTree

variable {t u w : ForkTree} {entry : Snapshot} {tip : Position}

/-! ## 1. Walks and branches -/

/-- Two ancestors of one position lie on one walk. -/
theorem Descends.total {p a b : Position} (ha : t.Descends p a) (hb : t.Descends p b) :
    t.Descends a b ∨ t.Descends b a := by
  obtain ⟨m, hm⟩ := ha
  obtain ⟨n, hn⟩ := hb
  rcases Nat.le_total m n with hle | hle
  · obtain ⟨k, rfl⟩ := Nat.exists_eq_add_of_le hle
    rw [climb_add, hm, Option.bind_some] at hn
    exact Or.inl ⟨k, hn⟩
  · obtain ⟨k, rfl⟩ := Nat.exists_eq_add_of_le hle
    rw [climb_add, hn, Option.bind_some] at hm
    exact Or.inr ⟨k, hm⟩

/-- Neither position is on the way from the other one to the anchor. -/
def Apart (t : ForkTree) (p q : Position) : Prop := ¬ t.Descends p q ∧ ¬ t.Descends q p

-- What leaves the branch of `a` does so before the ancestor `b` or after it.
theorem Descends.apart_iff {p a b : Position} (hab : t.Descends a b) :
    t.Apart p a ↔ t.Apart p b ∨ t.Descends p b ∧ t.Apart p a := by
  constructor
  · rintro ⟨hdown, hup⟩
    by_cases hb : t.Descends p b
    · exact Or.inr ⟨hb, hdown, hup⟩
    · exact Or.inl ⟨hb, fun h => hup (hab.trans h)⟩
  · rintro (⟨hdown, hup⟩ | ⟨-, h⟩)
    · exact ⟨fun h => hdown (h.trans hab), fun h => (h.total hab).elim hdown hup⟩
    · exact h

theorem Sound.descends_anchor (ht : t.Sound) {p : Position} (hp : p ∈ t.nodes) :
    t.Descends p t.anchor := ⟨_, ht.climb_anchor hp⟩

theorem Sound.mem_of_descends_node (ht : t.Sound) {p a : Position} (hp : p ∈ t.nodes)
    (h : t.Descends p a) : a ∈ t.nodes := by
  obtain ⟨n, hn⟩ := h
  exact (ht.climb_slot hp hn).1

theorem Sound.slot_le_of_descends (ht : t.Sound) {p a : Position} (hp : p ∈ t.nodes)
    (h : t.Descends p a) : a.slot.toNat ≤ p.slot.toNat := by
  obtain ⟨n, hn⟩ := h
  have := (ht.climb_slot hp hn).2
  omega

-- Nodes that come to a tree leave the walks from the old ones as they are.
theorem climb_eq_of_subset (hw : w.Sound)
    (hsub : ∀ (p : Position) (node : Node), w.nodes[p]? = some node → u.nodes[p]? = some node)
    {p : Position} (hp : p ∈ w.nodes) (n : Nat) : u.climb n p = w.climb n p := by
  induction n generalizing p with
  | zero => rfl
  | succ n ih =>
    obtain ⟨node, hnode⟩ := (Lookup.mem_iff_exists _ _).1 hp
    have hparent : u.parent? p = w.parent? p := by
      unfold parent?
      rw [hnode, hsub p node hnode]
    rw [climb_succ, climb_succ, hparent]
    cases hq : w.parent? p with
    | none => rfl
    | some q =>
      have hstep : w.climb 1 p = some q := by rw [climb_succ, hq]; rfl
      exact ih (hw.climb_slot hp hstep).1

theorem descends_iff_of_subset (hw : w.Sound)
    (hsub : ∀ (p : Position) (node : Node), w.nodes[p]? = some node → u.nodes[p]? = some node)
    {p : Position} (hp : p ∈ w.nodes) (a : Position) : u.Descends p a ↔ w.Descends p a :=
  exists_congr fun n => by rw [climb_eq_of_subset hw hsub hp n]

theorem Branch.of_subset {path : List Snapshot} {p : Position} (h : w.Branch path p)
    (hsub : ∀ (p : Position) (node : Node), w.nodes[p]? = some node → u.nodes[p]? = some node)
    (hanchor : u.anchor = w.anchor) : u.Branch path p := by
  induction h with
  | anchor => exact hanchor ▸ .anchor
  | child _ hnode hne hparent ih => exact .child ih (hsub _ _ hnode) (hanchor ▸ hne) hparent

theorem Branch.unique {path path' : List Snapshot} {p : Position} (h : t.Branch path p)
    (h' : t.Branch path' p) : path = path' := by
  induction h generalizing path' with
  | anchor =>
    cases h' with
    | anchor => rfl
    | child _ _ hne _ => exact absurd rfl hne
  | child _ hnode hne hparent ih =>
    cases h' with
    | anchor => exact absurd rfl hne
    | child hbefore' hnode' _ hparent' =>
      rw [hnode] at hnode'
      cases hnode'
      rw [hparent] at hparent'
      cases hparent'
      rw [ih hbefore']

-- The entries of a branch tell where it ends.
theorem Branch.end_unique (ht : t.Sound) {path : List Snapshot} {p q : Position} (h : t.Branch path p)
    (h' : t.Branch path q) : p = q := by
  cases h with
  | anchor =>
    generalize hlist : ([] : List Snapshot) = list at h'
    cases h' with
    | anchor => rfl
    | child => exact absurd hlist.symm (List.append_ne_nil_of_right_ne_nil _ (List.cons_ne_nil _ _))
  | @child entries _ _ node _ hnode _ _ =>
    generalize hlist : entries ++ [node.entry] = list at h'
    cases h' with
    | anchor => exact absurd hlist (List.append_ne_nil_of_right_ne_nil _ (List.cons_ne_nil _ _))
    | @child entries' _ _ node' _ hnode' _ _ =>
      have hentry := (List.cons.inj (List.append_inj' hlist rfl).2).1
      rw [← ht.stored p node hnode, ← ht.stored q node' hnode', hentry]

-- The first entries of a branch are the branch of a position that it passes.
theorem Branch.of_prefix {path taken : List Snapshot} {p : Position} (h : t.Branch path p)
    (htaken : taken <+: path) : ∃ a, t.Branch taken a ∧ t.Descends p a := by
  induction h with
  | anchor =>
    rw [List.prefix_nil.1 htaken]
    exact ⟨t.anchor, .anchor, descends_refl t _⟩
  | @child path p q node hbefore hnode hne hparent ih =>
    rcases List.prefix_concat_iff.1 htaken with rfl | htaken
    · exact ⟨p, .child hbefore hnode hne hparent, descends_refl t p⟩
    · obtain ⟨a, ha, hdescends⟩ := ih htaken
      exact ⟨a, ha, hdescends.step (parent?_of_node hnode hparent)⟩

-- The last entry of a branch is a child of where the branch before it ends.
theorem Branch.of_concat {taken : List Snapshot} {entry : Snapshot} {p : Position}
    (h : t.Branch (taken ++ [entry]) p) :
    ∃ q node, t.Branch taken q ∧ t.nodes[p]? = some node ∧ node.entry = entry ∧ node.parent = some q := by
  generalize hlist : taken ++ [entry] = list at h
  cases h with
  | anchor => exact absurd hlist (List.append_ne_nil_of_right_ne_nil _ (List.cons_ne_nil _ _))
  | @child before _ q node hbefore hnode _ hparent =>
    obtain ⟨hsame, hentry⟩ := List.append_inj' hlist rfl
    cases hentry
    exact ⟨q, node, hsame ▸ hbefore, hnode, rfl, hparent⟩

theorem Branch.mem (ht : t.Sound) {path : List Snapshot} {p : Position} (h : t.Branch path p) :
    p ∈ t.nodes := by
  cases h with
  | anchor => exact ht.anchor_mem
  | child _ hnode _ _ => exact Lookup.mem_of_eq_some hnode

/-- A branch has one entry for each slot after the anchor. -/
theorem Branch.slots (ht : t.Sound) {path : List Snapshot} {p : Position} (h : t.Branch path p) :
    path.map (fun e => e.summary.slot.toNat) =
      List.range' (t.anchor.slot.toNat + 1) (p.slot.toNat - t.anchor.slot.toNat) := by
  induction h with
  | anchor =>
    rw [Nat.sub_self]
    rfl
  | @child path p q node hbefore hnode hne hparent ih =>
    have hslot := (ht.follows hnode hparent).slot
    have hle := ht.anchor_slot_le (hbefore.mem ht)
    have hentry : node.entry.summary.slot = p.slot := congrArg Position.slot (ht.stored p node hnode)
    have hcount : p.slot.toNat - t.anchor.slot.toNat = q.slot.toNat - t.anchor.slot.toNat + 1 := by
      omega
    have hlast : t.anchor.slot.toNat + 1 + (q.slot.toNat - t.anchor.slot.toNat) = p.slot.toNat := by
      omega
    rw [List.map_append, ih, hcount, List.range'_1_concat, hlast]
    simp only [List.map_cons, List.map_nil, hentry]

/-- A node right after a node that carries the same block is its empty slot. -/
theorem Sound.following_node (ht : t.Sound) {p : Position} (hp : p ∈ t.nodes)
    (hslot : p.slot.toNat + 1 < 2 ^ 64) {node : Node} (hnode : t.nodes[following p]? = some node) :
    following p ≠ t.anchor ∧ node.entry.summary.isEmpty = true ∧ t.parent? (following p) = some p := by
  have hfollowing := toNat_slot_following hslot
  obtain ⟨origin, horigin, horiginLe, -⟩ := ht.exists_origin hp
  have hne : following p ≠ t.anchor := by
    intro heq
    have := ht.anchor_slot_le hp
    rw [← heq, hfollowing] at this
    omega
  -- Its block was indexed no later than at the slot before.
  have hempty : node.entry.summary.isEmpty = true := by
    cases hblock : node.entry.summary.isEmpty with
    | true => rfl
    | false =>
      have hindex : t.blocks[p.root]? = some (following p) :=
        (ht.blocks_iff _ _).2 ⟨rfl, Or.inr ⟨hne, node, hnode, hblock⟩⟩
      rw [hindex] at horigin
      cases horigin
      omega
  have hlink : node.entry.summary.linksTo = p.root := by
    rw [Summary.linksTo, if_pos hempty]
    exact congrArg Position.root (ht.stored _ _ hnode)
  exact ⟨hne, hempty, ht.parent?_eq hnode hne hfollowing.symm hlink⟩

/-! ## 2. Parts -/

/-- `t` is what `w` has at and below the anchor of `t`. -/
structure PartOf (t w : ForkTree) : Prop where
  spec : t.spec = w.spec
  anchor_mem : t.anchor ∈ w.nodes
  nodes : ∀ (p : Position) (node : Node), t.nodes[p]? = some node ↔
    ∃ old, w.nodes[p]? = some old ∧ w.Descends p t.anchor ∧ node = old.asKept t.anchor p

namespace PartOf

theorem refl (ht : t.Sound) : t.PartOf t := by
  refine ⟨rfl, ht.anchor_mem, fun p node => ?_⟩
  have hkept (old : Node) (hold : t.nodes[p]? = some old) : old.asKept t.anchor p = old := by
    unfold Node.asKept
    split
    · next heq =>
      obtain ⟨anchor, hanchor⟩ := ht.anchor_node
      rw [heq, hanchor] at hold
      cases hold
      rfl
    · rfl
  constructor
  · intro hnode
    exact ⟨node, hnode, ht.descends_anchor (Lookup.mem_of_eq_some hnode),
      (hkept node hnode).symm⟩
  · rintro ⟨old, hold, -, rfl⟩
    rw [hkept old hold]
    exact hold

theorem mem_iff (h : t.PartOf w) {p : Position} : p ∈ t.nodes ↔ p ∈ w.nodes ∧ w.Descends p t.anchor := by
  rw [Lookup.mem_iff_exists, Lookup.mem_iff_exists]
  constructor
  · rintro ⟨node, hnode⟩
    obtain ⟨old, hold, hdescends, -⟩ := (h.nodes p node).1 hnode
    exact ⟨⟨old, hold⟩, hdescends⟩
  · rintro ⟨⟨old, hold⟩, hdescends⟩
    exact ⟨_, (h.nodes p _).2 ⟨old, hold, hdescends, rfl⟩⟩

-- A node that is not the anchor is the same in the whole.
theorem node_of_ne (h : t.PartOf w) {p : Position} {node : Node} (hnode : t.nodes[p]? = some node)
    (hne : p ≠ t.anchor) : w.nodes[p]? = some node := by
  obtain ⟨old, hold, -, rfl⟩ := (h.nodes p node).1 hnode
  rw [Node.asKept, if_neg hne]
  exact hold

theorem exists_node (h : t.PartOf w) {p : Position} {node : Node} (hnode : t.nodes[p]? = some node) :
    ∃ old, w.nodes[p]? = some old ∧ old.entry = node.entry := by
  obtain ⟨old, hold, -, rfl⟩ := (h.nodes p node).1 hnode
  exact ⟨old, hold, (Node.entry_asKept old t.anchor p).symm⟩

theorem parent?_eq (h : t.PartOf w) {p : Position} (hp : p ∈ t.nodes) (hne : p ≠ t.anchor) :
    t.parent? p = w.parent? p := by
  obtain ⟨node, hnode⟩ := (Lookup.mem_iff_exists _ _).1 hp
  unfold parent?
  rw [hnode, h.node_of_ne hnode hne]

/-- Walks within the part are those of the whole that do not leave it. -/
theorem descends_iff (h : t.PartOf w) (ht : t.Sound) (hw : w.Sound) {p a : Position} (hp : p ∈ t.nodes) :
    t.Descends p a ↔ w.Descends p a ∧ a ∈ t.nodes := by
  constructor
  · rintro ⟨n, hn⟩
    refine ⟨⟨n, ?_⟩, (ht.climb_slot hp hn).1⟩
    induction n generalizing p with
    | zero => exact hn
    | succ n ih =>
      have hne : p ≠ t.anchor := by
        rintro rfl
        rw [climb_succ, ht.parent?_anchor] at hn
        cases hn
      obtain ⟨node, hnode⟩ := (Lookup.mem_iff_exists _ _).1 hp
      obtain ⟨q, hq, hparent, -⟩ := ht.exists_parent hnode hne
      rw [climb_succ, hparent, Option.bind_some] at hn
      rw [climb_succ, ← h.parent?_eq hp hne, hparent, Option.bind_some]
      exact ih hq hn
  · rintro ⟨⟨n, hn⟩, ha⟩
    have hslot := (hw.climb_slot (h.mem_iff.1 hp).1 hn).2
    refine ⟨n, ?_⟩
    induction n generalizing p with
    | zero => exact hn
    | succ n ih =>
      have hle := ht.anchor_slot_le ha
      have hne : p ≠ t.anchor := by
        rintro rfl
        omega
      obtain ⟨node, hnode⟩ := (Lookup.mem_iff_exists _ _).1 hp
      obtain ⟨q, hq, hparent, hfollows⟩ := ht.exists_parent hnode hne
      rw [climb_succ, ← h.parent?_eq hp hne, hparent, Option.bind_some] at hn
      rw [climb_succ, hparent, Option.bind_some]
      have := hfollows.slot
      exact ih hq hn (by omega)

theorem nodes_eq (h : t.PartOf w) (h' : u.PartOf w) (hanchor : t.anchor = u.anchor) :
    t.nodes = u.nodes := by
  apply Std.ExtTreeMap.ext_getElem?
  intro p
  apply Option.ext
  intro node
  rw [h.nodes, h'.nodes, hanchor]

/-- A branch of the part carries on the branch of its anchor. -/
theorem branch (h : t.PartOf w) (hw : w.Sound) {before path : List Snapshot} {p : Position}
    (hbefore : w.Branch before t.anchor) (hpath : t.Branch path p) : w.Branch (before ++ path) p := by
  induction hpath with
  | anchor =>
    rw [List.append_nil]
    exact hbefore
  | @child path p q node _ hnode hne hparent ih =>
    have hold := h.node_of_ne hnode hne
    have hne' : p ≠ w.anchor := by
      rintro rfl
      obtain ⟨anchor, hanchor⟩ := hw.anchor_node
      rw [hanchor] at hold
      cases hold
      cases hparent
    rw [← List.append_assoc]
    exact .child ih hold hne' hparent

/-! ## 3. Growth -/

theorem sprouts (h : t.PartOf w) (hw : w.Sound) (hsprouts : t.Sprouts entry tip) :
    w.Sprouts entry tip := by
  obtain ⟨node, hnode, hstate⟩ := hsprouts.state
  obtain ⟨old, hold, hentry⟩ := h.exists_node hnode
  have htip : tip ∈ t.nodes := Lookup.mem_of_eq_some hnode
  obtain ⟨htipW, htipDown⟩ := h.mem_iff.1 htip
  refine ⟨⟨old, hold, ?_⟩, hsprouts.spec.trans h.spec, hsprouts.slot, ?_, hsprouts.position⟩
  · rw [hentry, ← h.spec]
    exact hstate
  · -- A position after the tip with the same root would be its empty slot, and so be in the part.
    intro hmem
    obtain ⟨node', hnode'⟩ := (Lookup.mem_iff_exists _ _).1 hmem
    obtain ⟨-, -, hparent⟩ := hw.following_node htipW hsprouts.slot hnode'
    exact hsprouts.fresh (h.mem_iff.2 ⟨hmem, htipDown.step hparent⟩)

theorem grafts (h : t.PartOf w) (ht : t.Sound) (hw : w.Sound) {accepted : Block → Prop}
    (hbacked : w.Backed accepted) (hdistinct : Distinct accepted w.anchor.root) {b : Block}
    (hb : accepted b) (hgrafts : t.Grafts b entry tip) : w.Grafts b entry tip := by
  obtain ⟨node, hnode, hstate⟩ := hgrafts.state
  obtain ⟨old, hold, hentry⟩ := h.exists_node hnode
  obtain ⟨htipW, htipDown⟩ := h.mem_iff.1 hgrafts.tip_mem
  refine ⟨⟨old, hold, ?_⟩, hgrafts.spec.trans h.spec, htipW, hgrafts.slot, hgrafts.root, ?_⟩
  · rw [hentry, ← h.spec]
    exact hstate
  · cases hp : w.blocks[b.root]? with
    | none => rfl
    | some p =>
      -- The block would be an accepted one, hence this one, and be in the part.
      exfalso
      obtain ⟨hroot, hanchor | ⟨hne, node', hnode', hblock⟩⟩ := (hw.blocks_iff _ _).1 hp
      · exact hdistinct.foreign b hb (hanchor ▸ hroot.symm)
      · have hstored := hw.stored p node' hnode'
        obtain hempty | ⟨b', hb', hsummary⟩ := hbacked p node' hnode' hne
        · rw [hempty] at hblock
          cases hblock
        have hposition : p = ⟨b'.slot, b'.root⟩ := by
          rw [← hstored]
          exact congrArg Summary.position hsummary
        have hsame : b' = b := hdistinct.unique b' b hb' hb (by
          rw [hposition] at hroot
          exact hroot)
        subst hsame
        have hslot : tip.slot.toNat + 1 = p.slot.toNat := by
          rw [hposition]
          exact hgrafts.slot
        have hlink : node'.entry.summary.linksTo = tip.root := by
          rw [hsummary]
          exact hgrafts.root.symm
        have hparent := hw.parent?_eq hnode' hne hslot hlink
        have hpNe : p ≠ t.anchor := by
          rintro rfl
          have hle := ht.anchor_slot_le hgrafts.tip_mem
          omega
        have hdown : w.Descends p t.anchor := htipDown.step hparent
        have hnodeT : t.nodes[p]? = some node' := (h.nodes p node').2
          ⟨node', hnode', hdown, by rw [Node.asKept, if_neg hpNe]⟩
        have hindex := (ht.blocks_iff b'.root p).2 ⟨hroot, Or.inr ⟨hpNe, node', hnodeT, hblock⟩⟩
        rw [hgrafts.fresh] at hindex
        cases hindex

theorem insert (h : t.PartOf w) (ht : t.Sound) (hw : w.Sound) (hfits : t.Fits entry tip)
    (hfitsW : w.Fits entry tip) : (t.insert entry tip).PartOf (w.insert entry tip) := by
  have hdescends {p : Position} (hp : p ∈ w.nodes) :
      (w.insert entry tip).Descends p t.anchor ↔ w.Descends p t.anchor :=
    descends_iff_of_subset hw (fun _ _ hnode => hfitsW.nodes hnode) hp t.anchor
  have hne := hfits.ne_anchor ht
  refine ⟨h.spec, mem_insert_iff.2 (Or.inr h.anchor_mem), fun p node => ?_⟩
  rw [nodes_insert_iff]
  constructor
  · rintro (⟨rfl, rfl⟩ | ⟨hother, hnode⟩)
    · have hnew : (w.insert entry tip).nodes[entry.position]? = some ⟨entry, some tip⟩ :=
        nodes_insert_iff.2 (Or.inl ⟨rfl, rfl⟩)
      have htip := (hdescends hfitsW.tip_mem).2 (h.mem_iff.1 hfits.tip_mem).2
      exact ⟨_, hnew, htip.step (parent?_of_node hnew rfl), (if_neg hne).symm⟩
    · obtain ⟨old, hold, hdown, rfl⟩ := (h.nodes p node).1 hnode
      have hp : p ∈ w.nodes := Lookup.mem_of_eq_some hold
      exact ⟨old, nodes_insert_iff.2 (Or.inr ⟨hother, hold⟩), (hdescends hp).2 hdown, rfl⟩
  · rintro ⟨old, hold, hdown, rfl⟩
    rcases nodes_insert_iff.1 hold with ⟨rfl, rfl⟩ | ⟨hother, hold⟩
    · exact Or.inl ⟨rfl, if_neg hne⟩
    · have hp : p ∈ w.nodes := Lookup.mem_of_eq_some hold
      exact Or.inr ⟨hother, (h.nodes p _).2 ⟨old, hold, (hdescends hp).1 hdown, rfl⟩⟩

/-- `w'` is the whole after the part has grown from `t` to `u`. -/
structure Grown (accepted : Block → Prop) (t u w w' : ForkTree) : Prop where
  part : u.PartOf w'
  steps : Steps accepted w w'
  nodes : ∀ (p : Position) (node : Node), w'.nodes[p]? = some node ↔
    w.nodes[p]? = some node ∨ u.nodes[p]? = some node ∧ p ∉ t.nodes

/-- When the part grows, the whole can grow by the same nodes. -/
theorem steps (h : t.PartOf w) (ht : t.Sound) (hw : w.Sound) {accepted : Block → Prop}
    (hbacked : w.Backed accepted) (hdistinct : Distinct accepted w.anchor.root)
    (hsteps : Steps accepted t u) : ∃ w', Grown accepted t u w w' := by
  induction hsteps with
  | refl =>
    refine ⟨w, h, Relation.ReflTransGen.refl, fun p node => ⟨Or.inl, ?_⟩⟩
    rintro (hnode | ⟨hnode, hnot⟩)
    · exact hnode
    · exact absurd (Lookup.mem_of_eq_some hnode) hnot
  | @tail u v hsteps hstep ih =>
    obtain ⟨w', hpart, hstepsW, hnodes⟩ := ih
    have hu : u.Sound := Steps.sound hsteps ht
    have hw' := Steps.sound hstepsW hw
    have hanchor := Steps.anchor hstepsW
    -- One more node of the part is one more node of the whole.
    have hinsert {entry : Snapshot} {tip : Position} (hfits : u.Fits entry tip)
        (hfitsW : w'.Fits entry tip) (hstepW : Step accepted w' (w'.insert entry tip)) :
        ∃ w'', Grown accepted t (u.insert entry tip) w w'' := by
      refine ⟨_, hpart.insert hu hw' hfits hfitsW, Relation.ReflTransGen.tail hstepsW hstepW,
        fun p node => ?_⟩
      rw [nodes_insert_iff, nodes_insert_iff, hnodes]
      constructor
      · rintro (hnew | ⟨hother, hold | ⟨hnode, hnot⟩⟩)
        · refine Or.inr ⟨Or.inl hnew, fun hmem => hfits.fresh ?_⟩
          obtain ⟨node', hnode'⟩ := (Lookup.mem_iff_exists _ _).1 hmem
          exact Lookup.mem_of_eq_some (hnew.1 ▸ Steps.nodes hsteps ht hnode')
        · exact Or.inl hold
        · exact Or.inr ⟨Or.inr ⟨hother, hnode⟩, hnot⟩
      · rintro (hold | ⟨hnew | ⟨hother, hnode⟩, hnot⟩)
        · have hother : p ≠ entry.position := fun heq =>
            hfitsW.fresh (heq ▸ Lookup.mem_of_eq_some ((hnodes p node).2 (Or.inl hold)))
          exact Or.inr ⟨hother, Or.inl hold⟩
        · exact Or.inl hnew
        · exact Or.inr ⟨hother, Or.inr ⟨hnode, hnot⟩⟩
    cases hstep with
    | sprout hs =>
      have hsW := hpart.sprouts hw' hs
      exact hinsert (hs.fits hu) (hsW.fits hw') (.sprout hsW)
    | graft hb hg =>
      have hgW := hpart.grafts hu hw' (Steps.backed hstepsW hw hbacked) (hanchor ▸ hdistinct) hb hg
      exact hinsert (hg.fits hu) (hgW.fits hw') (.graft hb hgW)
    | point => exact ⟨w', ⟨hpart.spec, hpart.anchor_mem, hpart.nodes⟩, hstepsW, hnodes⟩

/-! ## 4. Moving the anchor -/

theorem reanchor (h : t.PartOf w) (ht : t.Sound) (hw : w.Sound) {a : Position} (ha : a ∈ t.nodes) :
    (t.reanchor a).1.PartOf w := by
  obtain ⟨haW, haDown⟩ := h.mem_iff.1 ha
  refine ⟨(spec_reanchor t a).trans h.spec, haW, fun p node => ?_⟩
  rw [anchor_reanchor, nodes_reanchor_iff ht ha]
  -- Where the old anchor stays, it is the new one, so no other node has lost its link before.
  have hkept (old : Node) (hp : p ∈ t.nodes) (hdown : t.Descends p a) :
      (old.asKept t.anchor p).asKept a p = old.asKept a p := by
    by_cases hpa : p = a
    · simp [Node.asKept, hpa]
      split <;> rfl
    · have hne : p ≠ t.anchor := by
        rintro rfl
        have hlt := UInt64.lt_iff_toNat_lt.1 (ht.slot_lt_of_descends hp hdown hpa)
        have hle := ht.anchor_slot_le ha
        omega
      simp [Node.asKept, hpa, hne]
  constructor
  · rintro ⟨mid, hmid, hdown, rfl⟩
    have hp : p ∈ t.nodes := Lookup.mem_of_eq_some hmid
    obtain ⟨old, hold, -, rfl⟩ := (h.nodes p mid).1 hmid
    exact ⟨old, hold, ((h.descends_iff ht hw hp).1 hdown).1, hkept old hp hdown⟩
  · rintro ⟨old, hold, hdown, rfl⟩
    have hp : p ∈ t.nodes :=
      h.mem_iff.2 ⟨Lookup.mem_of_eq_some hold, hdown.trans haDown⟩
    have hdownT := (h.descends_iff ht hw hp).2 ⟨hdown, ha⟩
    exact ⟨_, (h.nodes p _).2 ⟨old, hold, hdown.trans haDown, rfl⟩, hdownT, (hkept old hp hdownT).symm⟩

-- What is reported then lies between the two anchors, on other branches.
theorem pruned_iff (h : t.PartOf w) (ht : t.Sound) (hw : w.Sound) {a : Position} (ha : a ∈ t.nodes)
    {e : Snapshot} :
    e ∈ (t.reanchor a).2 ↔ ∃ p node, w.nodes[p]? = some node ∧ node.entry = e ∧
      w.Descends p t.anchor ∧ w.Apart p a := by
  rw [mem_pruned_iff ht ha]
  constructor
  · rintro ⟨p, node, hnode, he, hdown, hup⟩
    obtain ⟨old, hold, hentry⟩ := h.exists_node hnode
    have hp : p ∈ t.nodes := Lookup.mem_of_eq_some hnode
    rw [h.descends_iff ht hw hp] at hdown
    rw [h.descends_iff ht hw ha] at hup
    exact ⟨p, old, hold, hentry.trans he, (h.mem_iff.1 hp).2, fun hpa => hdown ⟨hpa, ha⟩,
      fun hap => hup ⟨hap, hp⟩⟩
  · rintro ⟨p, old, hold, he, hanchor, hdown, hup⟩
    have hp : p ∈ t.nodes := h.mem_iff.2 ⟨Lookup.mem_of_eq_some hold, hanchor⟩
    refine ⟨p, _, (h.nodes p _).2 ⟨old, hold, hanchor, rfl⟩, (Node.entry_asKept _ _ _).trans he, ?_, ?_⟩
    · exact fun hpa => hdown ((h.descends_iff ht hw hp).1 hpa).1
    · exact fun hap => hup ((h.descends_iff ht hw ha).1 hap).1

end PartOf

end BeaconHistory.ForkTree
