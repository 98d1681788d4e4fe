import BeaconHistory.Proofs.Frontier.Derived

/-!
# Frontier.Arrival — blocks in any order

Blocks of one parent share the empty slots after it, which are made by whichever of them comes first.  So
two orders make the same nodes in different calls and out of different entries.  What they have in common
is stated for one order: which blocks become indexed, which nodes they need, and that a node is computed
from its parent.  Main statement: these determine the tree, so blocks that can be added in two orders lead
to the same tree and to the same entries.
-/

namespace BeaconHistory

/-! ## 1. One entry, computed twice -/

section

variable {taken : Block → Prop} {first : Root} {spec : Spec} {s s' : State} {e e' : Snapshot}

-- Two entries at one position are computed in the same way.
theorem Next.alike (hd : Distinct taken first) (h : Next taken spec s e) (h' : Next taken spec s' e')
    (hposition : e.position = e'.position) (hempty : e.summary.isEmpty = e'.summary.isEmpty) :
    (e.summary.isEmpty = true ∧ s.advanced spec (s.slot + 1) = .ok e.state ∧
        s'.advanced spec (s'.slot + 1) = .ok e'.state) ∨
      ∃ b, e.summary = .ofBlock b ∧ e'.summary = .ofBlock b ∧
        (Transition.applyBlock spec b).reach s = .ok e.state ∧
        (Transition.applyBlock spec b).reach s' = .ok e'.state := by
  cases h with
  | empty he hstate =>
    cases h' with
    | empty _ hstate' => exact Or.inl ⟨he, hstate, hstate'⟩
    | block _ hsummary' => simp [he, hsummary', Summary.ofBlock] at hempty
  | @block b hb hsummary _ hstate =>
    cases h' with
    | empty he' => simp [he', hsummary, Summary.ofBlock] at hempty
    | @block b' hb' hsummary' _ hstate' =>
      have hroot : e.summary.blockRoot = e'.summary.blockRoot := congrArg Position.root hposition
      rw [hsummary, hsummary'] at hroot
      have hsame : b = b' := hd.unique b b' hb hb' hroot
      subst hsame
      exact Or.inr ⟨b, hsummary, hsummary', hstate, hstate'⟩

theorem Next.linksTo_eq (hd : Distinct taken first) (h : Next taken spec s e) (h' : Next taken spec s' e')
    (hposition : e.position = e'.position) (hempty : e.summary.isEmpty = e'.summary.isEmpty) :
    e.summary.linksTo = e'.summary.linksTo := by
  rcases h.alike hd h' hposition hempty with ⟨he, -, -⟩ | ⟨b, hsummary, hsummary', -, -⟩
  · have hroot : e.summary.blockRoot = e'.summary.blockRoot := congrArg Position.root hposition
    simp [Summary.linksTo, ← hempty, he, hroot]
  · rw [hsummary, hsummary']

/-- An entry is determined by its position, by whether it is empty and by the state before it. -/
theorem Next.unique (hd : Distinct taken first) (h : Next taken spec s e) (h' : Next taken spec s e')
    (hposition : e.position = e'.position) (hempty : e.summary.isEmpty = e'.summary.isEmpty)
    (hspec : e.spec = e'.spec) : e = e' := by
  apply Snapshot.ext_state hspec
  rcases h.alike hd h' hposition hempty with ⟨-, hstate, hstate'⟩ | ⟨b, -, -, hstate, hstate'⟩
  · exact Except.ok.inj (hstate.symm.trans hstate')
  · exact Except.ok.inj (hstate.symm.trans hstate')

end

namespace ForkTree

variable {taken : Block → Prop} {first : Root} {t u v : ForkTree} {blocks later : List Block} {b : Block}
  {entry : Snapshot} {p : Position}

/-! ## 2. What adding blocks does to a tree -/

/-- `u` is `t` with some blocks added, in any order and some of them maybe held before. -/
structure Gathers (taken : Block → Prop) (t : ForkTree) (blocks : List Block) (u : ForkTree) : Prop where
  steps : Steps taken t u
  head : u.head = t.head
  -- The index has the blocks, and nothing else that is new.
  blocks_iff : ∀ (root : Root) (p : Position), u.blocks[root]? = some p ↔
    t.blocks[root]? = some p ∨ ∃ b ∈ blocks, b.root = root ∧ p = ⟨b.slot, b.root⟩
  -- A new node is a new block, or one of the slots between its parent and it.
  needed : ∀ p ∈ u.nodes, p ∈ t.nodes ∨ ∃ b ∈ blocks, t.blocks[b.root]? = none ∧
    (p = ⟨b.slot, b.root⟩ ∨ p.root = b.parentRoot ∧ p.slot.toNat ≤ b.slot.toNat)
  -- The run of the parent covers the slot of a new block.
  covered : ∀ b ∈ blocks, t.blocks[b.root]? = none → (⟨b.slot, b.parentRoot⟩ : Position) ∈ u.nodes

theorem Steps.mem (h : Steps taken t u) (ht : t.Sound) (hp : p ∈ t.nodes) : p ∈ u.nodes := by
  obtain ⟨node, hnode⟩ := (Lookup.mem_iff_exists _ _).1 hp
  exact Lookup.mem_of_eq_some (h.nodes ht hnode)

theorem Gathers.refl (taken : Block → Prop) (t : ForkTree) : t.Gathers taken [] t := by
  refine ⟨Relation.ReflTransGen.refl, rfl, ?_, fun p => Or.inl, ?_⟩
  · simp
  · simp

-- A block that is held adds nothing.
theorem Gathers.of_held (h : t.blocks[b.root]? = some ⟨b.slot, b.root⟩) : t.Gathers taken [b] t := by
  refine ⟨Relation.ReflTransGen.refl, rfl, ?_, fun p => Or.inl, ?_⟩
  · intro root p
    simp only [List.mem_singleton, exists_eq_left, iff_self_or, and_imp]
    rintro rfl rfl
    exact h
  · intro b' hb' hnew
    rw [List.mem_singleton.1 hb', h] at hnew
    cases hnew

theorem Gathers.snapshot? (h : t.Gathers taken blocks u) (ht : t.Sound)
    (hentry : t.snapshot? p = some entry) : u.snapshot? p = some entry := by
  obtain ⟨node, hnode, rfl⟩ := Option.map_eq_some_iff.1 hentry
  simp [ForkTree.snapshot?, Steps.nodes h.steps ht hnode]

/-- Blocks are gathered list after list. -/
theorem Gathers.append (h : t.Gathers taken blocks v) (h' : v.Gathers taken later u) (ht : t.Sound)
    (hd : Distinct taken first) (htaken : ∀ b ∈ blocks ++ later, taken b) :
    t.Gathers taken (blocks ++ later) u := by
  have hv : v.Sound := Steps.sound h.steps ht
  -- A block that the first list has made known is in that list.
  have hknown {b : Block} (hb : b ∈ blocks ++ later) (hnew : t.blocks[b.root]? = none)
      (hheld : v.blocks[b.root]? ≠ none) : b ∈ blocks := by
    obtain ⟨p, hp⟩ := Option.ne_none_iff_exists'.1 hheld
    rcases (h.blocks_iff _ _).1 hp with hold | ⟨b', hb', hroot, -⟩
    · rw [hnew] at hold
      cases hold
    · exact hd.unique b' b (htaken b' (List.mem_append_left _ hb')) (htaken b hb) hroot ▸ hb'
  refine ⟨Relation.ReflTransGen.trans h.steps h'.steps, h'.head.trans h.head, ?_, ?_, ?_⟩
  · intro root p
    rw [h'.blocks_iff, h.blocks_iff]
    simp only [List.mem_append, or_and_right, exists_or, or_assoc]
  · intro p hp
    rcases h'.needed p hp with hold | ⟨b, hb, hnew, hplace⟩
    · rcases h.needed p hold with hold | ⟨b, hb, hnew, hplace⟩
      · exact Or.inl hold
      · exact Or.inr ⟨b, List.mem_append_left _ hb, hnew, hplace⟩
    · refine Or.inr ⟨b, List.mem_append_right _ hb, ?_, hplace⟩
      apply Option.eq_none_iff_forall_not_mem.2
      intro q hq
      rw [(h.blocks_iff _ _).2 (Or.inl hq)] at hnew
      cases hnew
  · intro b hb hnew
    by_cases hheld : v.blocks[b.root]? = none
    · rcases List.mem_append.1 hb with hb | hb
      · exact h'.steps.mem hv (h.covered b hb hnew)
      · exact h'.covered b hb hheld
    · exact h'.steps.mem hv (h.covered b (hknown hb hnew hheld) hnew)

-- A block that is served stands where it belongs: no other block of the tree has its root.
theorem Sound.snapshot?_of_block? (ht : t.Sound) (hbacked : t.Backed taken) (hd : Distinct taken first)
    (hb : taken b) (h : t.block? b.root = some entry) :
    t.blocks[b.root]? = some ⟨b.slot, b.root⟩ ∧ t.snapshot? ⟨b.slot, b.root⟩ = some entry := by
  obtain ⟨p, node, hindex, hne, hnode, rfl⟩ := ht.block?_eq_some_iff.1 h
  obtain ⟨hroot, hanchor | ⟨-, node', hnode', hblock⟩⟩ := (ht.blocks_iff _ _).1 hindex
  · exact absurd hanchor hne
  rw [hnode] at hnode'
  cases hnode'
  rcases hbacked p node hnode hne with hempty | ⟨b', hb', hsummary⟩
  · rw [hempty] at hblock
    cases hblock
  have hposition : p = ⟨b'.slot, b'.root⟩ := by
    rw [← ht.stored p node hnode]
    exact congrArg Summary.position hsummary
  have hsame : b' = b := hd.unique b' b hb' hb (by rw [← hroot, hposition])
  subst hsame
  subst hposition
  exact ⟨hindex, by simp [snapshot?, hnode]⟩

theorem Adds.gathers (h : t.Adds b entry u) (ht : t.Sound) (hb : taken b) :
    t.Gathers taken [b] u ∧ u.snapshot? ⟨b.slot, b.root⟩ = some entry := by
  obtain ⟨tip, v, hgrown, hwithin, hgrafts, rfl⟩ := h
  have hblocks := hgrown.blocks ht
  have hposition := hgrafts.position
  have hblock : entry.summary.isEmpty = false := by
    rw [hgrafts.summary]
    rfl
  have hfresh : t.blocks[b.root]? = none := hblocks ▸ hgrafts.fresh
  refine ⟨⟨Relation.ReflTransGen.tail (hgrown.steps _) (.graft hb hgrafts), hgrown.head, ?_, ?_, ?_⟩, ?_⟩
  · intro root p
    rw [ForkTree.blocks_insert, hblocks, hposition]
    by_cases hroot : b.root = root
    · subst hroot
      simp [hblock, hfresh, eq_comm]
    · simp [hroot]
  · intro p hp
    rcases mem_insert_iff.1 hp with rfl | hp
    · exact Or.inr ⟨b, List.mem_singleton_self b, hfresh, Or.inl hposition⟩
    · exact (hwithin p hp).imp_right fun hplace => ⟨b, List.mem_singleton_self b, hfresh, Or.inr hplace⟩
  · intro b' hb' _
    rw [List.mem_singleton.1 hb']
    obtain ⟨pre, hpre, -⟩ := hgrafts.state
    rw [following_eq hgrafts.slot, hgrafts.root] at hpre
    exact mem_insert_iff.2 (Or.inr (Lookup.mem_of_eq_some hpre))
  · simp [snapshot?, nodes_insert, hposition]

/-! ## 3. Two orders -/

section

variable {blocks' : List Block} {u' : ForkTree}

theorem Gathers.blocks_eq (h : t.Gathers taken blocks u) (h' : t.Gathers taken blocks' u')
    (hsame : ∀ b, b ∈ blocks ↔ b ∈ blocks') : u.blocks = u'.blocks := by
  apply Std.ExtTreeMap.ext_getElem?
  intro root
  apply Option.ext
  intro p
  rw [h.blocks_iff, h'.blocks_iff]
  simp only [hsame]

theorem Gathers.mem_of_mem (h : t.Gathers taken blocks u) (h' : t.Gathers taken blocks' u') (ht : t.Sound)
    (hsame : ∀ b, b ∈ blocks ↔ b ∈ blocks') (hp : p ∈ u.nodes) : p ∈ u'.nodes := by
  have hu : u.Sound := Steps.sound h.steps ht
  have hu' : u'.Sound := Steps.sound h'.steps ht
  rcases h.needed p hp with hold | ⟨b, hb, hnew, rfl | ⟨hroot, hslot⟩⟩
  · exact h'.steps.mem ht hold
  · exact hu'.mem_of_blocks ((h'.blocks_iff _ _).2 (Or.inr ⟨b, (hsame b).1 hb, rfl, rfl⟩))
  · -- Both runs of the parent start at one position, and the other one reaches the slot of the block.
    obtain ⟨origin, horigin, hle, -⟩ := hu.exists_origin hp
    rw [h.blocks_eq h' hsame, hroot] at horigin
    have hcovered := h'.covered b ((hsame b).1 hb) hnew
    have hrun := hu'.mem_run hcovered horigin (UInt64.le_iff_toNat_le.2 hle) (UInt64.le_iff_toNat_le.2 hslot)
    rw [← hroot] at hrun
    exact hrun

-- Whether a node after the anchor is empty can be read off the index.
theorem Sound.isEmpty_eq_false_iff (ht : t.Sound) {node : Node} (hnode : t.nodes[p]? = some node)
    (hne : p ≠ t.anchor) : node.entry.summary.isEmpty = false ↔ t.blocks[p.root]? = some p := by
  rw [ht.blocks_iff]
  simp [hne, hnode]

theorem Gathers.isEmpty_eq (h : t.Gathers taken blocks u) (h' : t.Gathers taken blocks' u')
    (ht : t.Sound) (hsame : ∀ b, b ∈ blocks ↔ b ∈ blocks') {node node' : Node}
    (hnode : u.nodes[p]? = some node) (hnode' : u'.nodes[p]? = some node') (hne : p ≠ t.anchor) :
    node.entry.summary.isEmpty = node'.entry.summary.isEmpty := by
  have hiff := (Steps.sound h.steps ht).isEmpty_eq_false_iff hnode (by rwa [Steps.anchor h.steps])
  rw [h.blocks_eq h' hsame, ← (Steps.sound h'.steps ht).isEmpty_eq_false_iff hnode'
    (by rwa [Steps.anchor h'.steps])] at hiff
  exact Bool.eq_iff_iff.2 (by simpa using not_congr hiff)

-- A node links to the slot before it and to one root there.
theorem Node.Follows.unique {node node' : Node} {q q' : Position} (h : node.Follows p q)
    (h' : node'.Follows p q') (hlinks : node.entry.summary.linksTo = node'.entry.summary.linksTo) :
    q = q' := by
  have hslot : q.slot = q'.slot := by
    apply UInt64.toNat_inj.1
    have := h.slot
    have := h'.slot
    omega
  have hroot : q.root = q'.root := by rw [h.root, h'.root, hlinks]
  cases q
  cases q'
  rw [Position.mk.injEq]
  exact ⟨hslot, hroot⟩

/-- Each node is the same in both orders: it is computed from its parent, which is. -/
theorem Gathers.node_eq (h : t.Gathers taken blocks u) (h' : t.Gathers taken blocks' u') (ht : t.Sound)
    (hderived : t.Derived taken) (hd : Distinct taken first) (hsame : ∀ b, b ∈ blocks ↔ b ∈ blocks')
    {node node' : Node} (hnode : u.nodes[p]? = some node) (hnode' : u'.nodes[p]? = some node') :
    node = node' := by
  have hu : u.Sound := Steps.sound h.steps ht
  have hu' : u'.Sound := Steps.sound h'.steps ht
  have hspec : u'.spec = u.spec := (Steps.spec h'.steps).trans (Steps.spec h.steps).symm
  -- Induction on the slot, which is one less for the parent.
  generalize hn : p.slot.toNat = n
  induction n using Nat.strongRecOn generalizing p node node' with
  | ind n ih =>
    by_cases hp : p ∈ t.nodes
    · obtain ⟨old, hold⟩ := (Lookup.mem_iff_exists _ _).1 hp
      have hkept := Steps.nodes h.steps ht hold
      have hkept' := Steps.nodes h'.steps ht hold
      exact Option.some.inj (hnode.symm.trans (hkept.trans (hkept'.symm.trans hnode')))
    · have hne : p ≠ t.anchor := fun heq => hp (heq ▸ ht.anchor_mem)
      obtain ⟨hentrySpec, q, before, hparent, hbefore, hnext⟩ :=
        Steps.derived h.steps ht hderived p node hnode (by rwa [Steps.anchor h.steps])
      obtain ⟨hentrySpec', q', before', hparent', hbefore', hnext'⟩ :=
        Steps.derived h'.steps ht hderived p node' hnode' (by rwa [Steps.anchor h'.steps])
      rw [hspec] at hnext' hentrySpec'
      have hposition : node.entry.position = node'.entry.position :=
        (hu.stored p node hnode).trans (hu'.stored p node' hnode').symm
      have hempty := h.isEmpty_eq h' ht hsame hnode hnode' hne
      have hfollows := hu.follows hnode hparent
      have hslot := hfollows.slot
      have hq : q = q' := hfollows.unique (hu'.follows hnode' hparent')
        (hnext.linksTo_eq hd hnext' hposition hempty)
      subst hq
      have hbeforeEq := ih q.slot.toNat (by omega) hbefore hbefore' rfl
      subst hbeforeEq
      have hentry := hnext.unique hd hnext' hposition hempty (hentrySpec.trans hentrySpec'.symm)
      cases node
      cases node'
      rw [Node.mk.injEq]
      exact ⟨hentry, hparent.trans hparent'.symm⟩

/-- Blocks that are added in two orders lead to one tree. -/
theorem Gathers.eq (h : t.Gathers taken blocks u) (h' : t.Gathers taken blocks' u') (ht : t.Sound)
    (hderived : t.Derived taken) (hd : Distinct taken first) (hsame : ∀ b, b ∈ blocks ↔ b ∈ blocks')
    (hindexed : u.Indexed) (hindexed' : u'.Indexed) : u = u' := by
  refine (Steps.sound h.steps ht).eq_of_nodes (Steps.sound h'.steps ht) hindexed hindexed'
    ((Steps.spec h.steps).trans (Steps.spec h'.steps).symm)
    ((Steps.anchor h.steps).trans (Steps.anchor h'.steps).symm) (h.head.trans h'.head.symm) ?_
  apply Std.ExtTreeMap.ext_getElem?
  intro p
  apply Option.ext
  intro node
  constructor
  · intro hnode
    have hp := h.mem_of_mem h' ht hsame (Lookup.mem_of_eq_some hnode)
    obtain ⟨node', hnode'⟩ := (Lookup.mem_iff_exists _ _).1 hp
    rw [h.node_eq h' ht hderived hd hsame hnode hnode']
    exact hnode'
  · intro hnode'
    have hp := h'.mem_of_mem h ht (fun b => (hsame b).symm) (Lookup.mem_of_eq_some hnode')
    obtain ⟨node, hnode⟩ := (Lookup.mem_iff_exists _ _).1 hp
    rw [← h.node_eq h' ht hderived hd hsame hnode hnode']
    exact hnode

end

end ForkTree

namespace Frontier

/-! ## 4. Calls -/

section

variable {σ : Type} {f g : Frontier σ} {b : Block} {entry : Snapshot} {entries : List Snapshot}
  {blocks : List Block}

theorem addBlock_eq_ok (h : addBlock b f = .ok entry g) :
    f.poisoned = false ∧ ForkTree.insertBlock b f.tree = .ok entry g.tree := by
  cases hopen : f.poisoned with
  | true =>
    rw [addBlock, exclusively_of_poisoned _ hopen] at h
    cases h
  | false =>
    obtain ⟨metrics, heq⟩ := addBlock_eq b hopen
    rw [heq] at h
    cases hinsert : ForkTree.insertBlock b f.tree with
    | ok entry' u =>
      rw [hinsert] at h
      cases h
      exact ⟨rfl, rfl⟩
    | error e u =>
      rw [hinsert] at h
      cases e <;> cases h

theorem addBlocks_cons_eq_ok (h : (b :: blocks).mapM addBlock f = .ok entries g) :
    ∃ entry v rest, addBlock b f = .ok entry v ∧ blocks.mapM addBlock v = .ok rest g ∧
      entries = entry :: rest := by
  rw [List.mapM_cons] at h
  simp only [bind, EStateM.bind] at h
  cases hfirst : addBlock b f with
  | error e v =>
    rw [hfirst] at h
    cases h
  | ok entry v =>
    rw [hfirst] at h
    dsimp only at h
    cases hrest : blocks.mapM addBlock v with
    | error e w =>
      rw [hrest] at h
      cases h
    | ok rest w =>
      rw [hrest] at h
      cases h
      exact ⟨entry, v, rest, rfl, hrest, rfl⟩

variable [Sink σ]

/-- Blocks that are all added are those that the calls take. -/
theorem play_addBlocks (h : blocks.mapM addBlock f = .ok entries g) :
    play (blocks.map .addBlock) f = g ∧ accepted (blocks.map .addBlock) f = blocks := by
  induction blocks generalizing f entries with
  | nil =>
    cases h
    exact ⟨rfl, rfl⟩
  | cons b blocks ih =>
    obtain ⟨entry, v, rest, hfirst, hrest, -⟩ := addBlocks_cons_eq_ok h
    obtain ⟨hplay, haccepted⟩ := ih hrest
    have hafter : (Call.addBlock b).after f = v := Operation.after_eq_of_ok hfirst
    have htaken : (Call.addBlock b).accepted f = [b] := by
      simp [Call.accepted, Operation.outcome, EStateM.run, hfirst]
    constructor
    · rw [List.map_cons, play, List.foldl_cons, hafter]
      exact hplay
    · rw [List.map_cons, accepted, hafter, htaken, haccepted, List.singleton_append]

/-- Adding blocks gathers them, and gives the entry that each of them then has. -/
theorem gathers_addBlocks {taken : Block → Prop} {first : Root} (ht : f.tree.Sound)
    (hbacked : f.tree.Backed taken) (hd : Distinct taken first) (htaken : ∀ b ∈ blocks, taken b)
    (hK : CollisionFree (hashed (blocks.map .addBlock) f))
    (h : blocks.mapM addBlock f = .ok entries g) :
    f.tree.Gathers taken blocks g.tree ∧
      entries.map some = blocks.map fun b => g.tree.snapshot? ⟨b.slot, b.root⟩ := by
  induction blocks generalizing f entries with
  | nil =>
    cases h
    exact ⟨.refl taken _, rfl⟩
  | cons b blocks ih =>
    obtain ⟨entry, v, rest, hfirst, hrest, rfl⟩ := addBlocks_cons_eq_ok h
    have hb : taken b := htaken b (List.mem_cons_self ..)
    have hafter : (Call.addBlock b).after f = v := Operation.after_eq_of_ok hfirst
    rw [List.map_cons, hashed, hafter] at hK
    obtain ⟨hopen, hinsert⟩ := addBlock_eq_ok hfirst
    have hone : f.tree.Gathers taken [b] v.tree ∧ v.tree.snapshot? ⟨b.slot, b.root⟩ = some entry := by
      rcases (adds_addBlock b ht hopen hK.left).2 entry v.tree hinsert with ⟨hsame, hheld⟩ | hadds
      · obtain ⟨hindex, hentry⟩ := ht.snapshot?_of_block? hbacked hd hb hheld
        rw [hsame]
        exact ⟨.of_held hindex, hentry⟩
      · exact hadds.gathers ht hb
    obtain ⟨hgathers, hentry⟩ := hone
    have hv : v.tree.Sound := hgathers.steps.sound ht
    obtain ⟨hlater, hentries⟩ := ih hv (hgathers.steps.backed ht hbacked)
      (fun b hb => htaken b (List.mem_cons_of_mem _ hb)) hK.right hrest
    refine ⟨hgathers.append hlater ht hd htaken, ?_⟩
    rw [List.map_cons, List.map_cons, hentries, hlater.snapshot? hv hentry]

/-- The order of arrival does not matter: if some blocks can be added to a frontier in use in two
orders, the tree ends up the same, and every block gets the same entry. -/
theorem arrival_of_run (spec : Spec) (sink : σ) {anchor : Snapshot} {specs : Spec → Prop}
    (hanchor : anchor.state.Reached specs) (calls : List Call) {blocks blocks' : List Block}
    (hperm : blocks.Perm blocks') {entries entries' : List Snapshot} {g g' : Frontier σ}
    (h : blocks.mapM addBlock (play calls (plant anchor sink spec)) = .ok entries g)
    (h' : blocks'.mapM addBlock (play calls (plant anchor sink spec)) = .ok entries' g')
    (hK : CollisionFree (hashed (calls ++ blocks.map .addBlock) (plant anchor sink spec)))
    (hK' : CollisionFree (hashed (calls ++ blocks'.map .addBlock) (plant anchor sink spec))) :
    g.tree = g'.tree ∧ ∃ entryOf : Block → Snapshot,
      entries = blocks.map entryOf ∧ entries' = blocks'.map entryOf := by
  have hsame (b : Block) : b ∈ blocks ↔ b ∈ blocks' := hperm.mem_iff
  obtain ⟨hplay, haccepted⟩ := play_addBlocks h
  obtain ⟨hplay', -⟩ := play_addBlocks h'
  have hsound := ForkTree.sound_plant spec hanchor.aged
  -- The blocks that are taken are the same in both runs, and have roots of their own.
  have hd := distinct_accepted _ hsound rfl hK
  have hblocks : ∀ b ∈ blocks, b ∈ accepted (calls ++ blocks.map .addBlock) (plant anchor sink spec) := by
    rw [accepted_append, haccepted]
    exact fun b hb => List.mem_append_right _ hb
  have hbefore : ∀ b ∈ accepted calls (plant anchor sink spec),
      b ∈ accepted (calls ++ blocks.map .addBlock) (plant anchor sink spec) := by
    rw [accepted_append]
    exact fun b hb => List.mem_append_left _ hb
  have hderived := ForkTree.derived_plant (· ∈ accepted (calls ++ blocks.map .addBlock)
    (plant anchor sink spec)) spec anchor
  have hindexed := indexed_play _ hsound hK (ForkTree.indexed_plant spec anchor)
  have hindexed' := indexed_play _ hsound hK' (ForkTree.indexed_plant spec anchor)
  rw [play_append, hplay] at hindexed
  rw [play_append, hplay'] at hindexed'
  rw [hashed_append] at hK hK'
  have ht := sound_play calls hsound hK.left
  have hderived := derived_play calls hsound hK.left hbefore hderived
  obtain ⟨hgathers, hentries⟩ := gathers_addBlocks ht hderived.backed hd hblocks hK.right h
  obtain ⟨hgathers', hentries'⟩ := gathers_addBlocks ht hderived.backed hd
    (fun b hb => hblocks b ((hsame b).2 hb)) hK'.right h'
  have htree := hgathers.eq hgathers' ht hderived hd hsame hindexed hindexed'
  rw [← htree] at hentries'
  have hread {blocks : List Block} {entries : List Snapshot}
      (hentries : entries.map some = blocks.map fun b => g.tree.snapshot? ⟨b.slot, b.root⟩) :
      entries = blocks.map fun b => (g.tree.snapshot? ⟨b.slot, b.root⟩).getD anchor := by
    simpa [Function.comp_def] using congrArg (List.map (·.getD anchor)) hentries
  exact ⟨htree, _, hread hentries, hread hentries'⟩

end

-- The siblings are added in both orders, over the same strings.
theorem evaluated_siblings :
    CollisionFree (hashed ([] ++ tinySiblings.map .addBlock) (plant tinyAnchor () tinySpec)) ∧
      (∀ x ∈ hashed ([] ++ tinySiblings.reverse.map .addBlock) (plant tinyAnchor () tinySpec),
        x ∈ hashed ([] ++ tinySiblings.map .addBlock) (plant tinyAnchor () tinySpec)) ∧
      ((tinySiblings.mapM addBlock).outcome (play [] (plant tinyAnchor () tinySpec))).toBool = true ∧
      ((tinySiblings.reverse.mapM addBlock).outcome
        (play [] (plant tinyAnchor () tinySpec))).toBool = true ∧
      ((addBlock (tinyChild .zero)).outcome (plant tinyAnchor () tinySpec)).toBool = true := by
  decide +kernel

theorem arrival_of_run_tiny :
    ∃ entries entries' g g',
      tinySiblings.mapM addBlock (play [] (plant tinyAnchor () tinySpec)) = .ok entries g ∧
      tinySiblings.reverse.mapM addBlock (play [] (plant tinyAnchor () tinySpec)) = .ok entries' g' ∧
      g.tree = g'.tree ∧ ∃ entryOf : Block → Snapshot,
        entries = tinySiblings.map entryOf ∧ entries' = tinySiblings.reverse.map entryOf := by
  obtain ⟨hK, hsub, hadded, hadded', -⟩ := evaluated_siblings
  obtain ⟨entries, g, h⟩ := Operation.exists_of_toBool hadded
  obtain ⟨entries', g', h'⟩ := Operation.exists_of_toBool hadded'
  exact ⟨entries, entries', g, g', h, h', arrival_of_run tinySpec () reached_tiny []
    (List.reverse_perm tinySiblings).symm h h' hK (hK.mono hsub)⟩

end Frontier

end BeaconHistory
