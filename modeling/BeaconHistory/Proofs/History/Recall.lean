import BeaconHistory.Proofs.History.Line
import BeaconHistory.Proofs.Ring

/-!
# History.Recall — states remember the history they come from

Earlier blocks are on record twice: in the ring of every state, one cell for each slot, and in the links
of the tree together with the records of the ledger.  Main statement: as far as the ring of a state goes
back, both tell the same blocks, on every fork and across the anchor.
-/

namespace BeaconHistory

/-! ## 1. Branches -/

namespace ForkTree

variable {t : ForkTree} {taken : Block → Prop} {first : Summary} {log : List Summary} {anchor : Snapshot}
  {path : List Snapshot} {p : Position} {node : Node}

/-- If the state of the anchor recalls its past, that of a node recalls this and the branch to itself. -/
theorem Branch.recalls (ht : t.Sound) (hderived : t.Derived taken)
    (hanchor : t.nodes[t.anchor]? = some ⟨anchor, none⟩)
    (hlog : Chronicle taken first log anchor.summary) (hrecalls : anchor.state.Recalls t.spec log)
    (hpath : t.Branch path p) (hnode : t.nodes[p]? = some node) :
    node.entry.state.Recalls t.spec (log ++ path.map Snapshot.summary) := by
  induction hpath generalizing node with
  | anchor =>
    rw [hanchor] at hnode
    cases hnode
    rw [List.map_nil, List.append_nil]
    exact hrecalls
  | @child path p q node' hpath hnode' hne hparent ih =>
    rw [hnode'] at hnode
    cases hnode
    obtain ⟨-, q', before, hlink, hbefore, hnext⟩ := hderived p node' hnode' hne
    cases hlink.symm.trans hparent
    rw [List.map_append, ← List.append_assoc]
    refine (ih hbefore).next (fun s hs hslot => ?_) hnext.recorded (congrArg Summary.slot node'.entry.summary_eq)
    -- The parent is the last entry so far, so no other one is at its slot.
    obtain ⟨_, heq, hchronicle⟩ := hpath.chronicle ht hderived.backed hanchor hlog
    rw [hbefore] at heq
    cases heq
    have hsummary := before.entry.summary_eq
    have hsame : s = before.entry.summary :=
      hchronicle.eq_of_slot_eq hs hchronicle.last_mem (hslot.trans (congrArg Summary.slot hsummary).symm)
    rw [hsame, hsummary]
    rfl

end ForkTree

namespace History

variable {τ : Type} {h : History τ} {taken : Block → Prop} {first : Summary} {spec : Spec}

/-! ## 2. The invariant -/

/-- The nodes are computed from their parents, and the state of the anchor recalls the records. -/
structure Recalled (taken : Block → Prop) (spec : Spec) (h : History τ) : Prop where
  constants : h.frontier.tree.spec = spec
  derived : h.frontier.tree.Derived taken
  anchor : ∀ entry : Snapshot, h.frontier.tree.nodes[h.frontier.tree.anchor]? = some ⟨entry, none⟩ →
    entry.state.Recalls spec h.ledger.records.toList

variable [Archive τ]

theorem recalled_start {anchor : Snapshot} {archive : τ} (hstart : start anchor spec archive = .ok h)
    (taken : Block → Prop) : h.Recalled taken spec := by
  obtain ⟨-, archive', -, rfl⟩ := start_eq_ok_iff.1 hstart
  refine ⟨rfl, ForkTree.derived_plant taken spec anchor, fun entry hentry q hq hearlier => ?_⟩
  obtain ⟨-, heq⟩ := ForkTree.nodes_plant_iff.1 hentry
  cases heq
  -- The only record is that of the anchor itself.
  have hrecords : (firstLedger anchor spec archive').records.toList = [anchor.summary] := rfl
  rw [show q = anchor.summary from List.mem_singleton.1 (hrecords ▸ hq), anchor.summary_eq] at hearlier
  exact absurd hearlier (Nat.lt_irrefl _)

theorem Recalled.move (hsteady : Archive.Steady τ) (hs : h.Sound taken first)
    (hr : h.Recalled taken spec) {u : ForkTree} {g : Frontier (Ledger τ)}
    (hmove : Frontier.Move taken h.frontier u g) : (⟨g⟩ : History τ).Recalled taken spec := by
  have hopen := hmove.opened (Ledger.sink_steady hsteady) hs.spec hs.opened
  refine ⟨hmove.spec.trans hr.constants, hmove.derived hs.tree hr.derived, fun entry hentry => ?_⟩
  obtain ⟨anchor, hanchor, hlog⟩ := hs.joined
  have hrecalls := hr.anchor anchor hanchor
  show entry.state.Recalls spec g.sink.records.toList
  cases hmove with
  | grow hsteps _ hsink =>
    have hkept := hsteps.nodes hs.tree hanchor
    rw [← hsteps.anchor, show g.tree.nodes[g.tree.anchor]? = _ from hentry] at hkept
    cases hkept
    rw [hsink]
    exact hrecalls
  | settle hgrown hpath htree hsink =>
    rw [Ledger.pruneAll_eq] at hsink
    obtain ⟨-, hrecords⟩ := hs.settle hsteady hgrown hpath hopen htree hsink
    have hsteps := hgrown.steps taken
    have hu := hgrown.sound hs.tree
    have hderived := hsteps.derived hs.tree hr.derived
    have hspec : u.spec = spec := hsteps.spec.trans hr.constants
    have hanchorU : u.nodes[u.anchor]? = some ⟨anchor, none⟩ := by
      rw [hgrown.anchor]
      exact hgrown.nodes hs.tree hanchor
    -- The new anchor is the end of the branch that was taken, and this branch is what is recorded.
    obtain ⟨a, hbranch, -, hsettles⟩ :=
      Frontier.exists_settles hu hpath (Frontier.prefix_accepted _ h.frontier.sink)
    have hnode : g.tree.nodes[g.tree.anchor]? = some ⟨entry, none⟩ := hentry
    rw [htree, hsettles.anchor] at hnode
    obtain ⟨old, hold, hsame⟩ := (hsettles.partOf hu).exists_node hnode
    have hend := hbranch.recalls hu hderived hanchorU hlog (hspec ▸ hrecalls) hold
    rw [hsame, hspec] at hend
    rw [hrecords]
    exact hend
  | broke _ _ hpoisoned =>
    rw [hopen] at hpoisoned
    cases hpoisoned

theorem recalled_of_start (hsteady : Archive.Steady τ) {anchor : Snapshot} {archive : τ}
    {specs : Spec → Prop} (hanchor : anchor.state.Reached specs)
    (hstart : start anchor spec archive = .ok h) (calls : List Call)
    (hK : CollisionFree (hashed calls h)) :
    (play calls h).Recalled (· ∈ accepted calls h) spec :=
  keeps_play hK (fun hs hr hmove _ => hr.move hsteady hs hmove) hsteady calls (fun _ => id) (fun _ => id)
    (sound_start hanchor hstart _) (recalled_start hstart _)

/-! ## 3. What is recalled -/

omit [Archive τ] in
/-- A node recalls the records and its own branch. -/
theorem Recalled.node (hr : h.Recalled taken spec) (hs : h.Sound taken first) {p : Position}
    {node : ForkTree.Node} (hnode : h.frontier.tree.nodes[p]? = some node) :
    ∃ path, h.frontier.tree.Branch path p ∧
      node.entry.state.Recalls spec (h.ledger.records.toList ++ path.map Snapshot.summary) := by
  obtain ⟨anchor, hanchor, hlog⟩ := hs.joined
  obtain ⟨path, hpath⟩ := hs.tree.exists_pathTo (Lookup.mem_of_eq_some hnode)
  obtain ⟨hbranch, -⟩ := ForkTree.branch_of_pathTo hpath
  have hrecalls := hr.anchor anchor hanchor
  rw [← hr.constants] at hrecalls ⊢
  exact ⟨path, hbranch, hbranch.recalls hs.tree hr.derived hanchor hlog hrecalls hnode⟩

omit [Archive τ] in
/-- A node recalls its ancestors in the tree, the anchor included. -/
theorem Recalled.ancestor (hr : h.Recalled taken spec) (hs : h.Sound taken first) {p a : Position}
    {node ancestor : ForkTree.Node} (hnode : h.frontier.tree.nodes[p]? = some node)
    (hancestor : h.frontier.tree.nodes[a]? = some ancestor) (hdown : h.frontier.tree.Descends p a)
    (hback : node.entry.state.LooksBack spec a.slot) :
    node.entry.state.blockRootAt spec a.slot = .ok a.root := by
  obtain ⟨path, hbranch, hrecalls⟩ := hr.node hs hnode
  have hposition : ancestor.entry.summary.position = a := hs.tree.stored a ancestor hancestor
  have hmem : ancestor.entry.summary ∈ h.ledger.records.toList ++ path.map Snapshot.summary := by
    by_cases hne : a = h.frontier.tree.anchor
    · obtain ⟨anchor, hanchor, hlog⟩ := hs.joined
      rw [hne, hanchor] at hancestor
      cases hancestor
      exact List.mem_append_left _ hlog.last_mem
    · have hentry := hs.tree.mem_of_descends hbranch hdown hancestor hne
      exact List.mem_append_right _ (List.mem_map_of_mem hentry)
  subst hposition
  exact hrecalls.blockRootAt hmem hback

/-- The state of the head recalls what is found at the slots of its window. -/
theorem Recalled.head (hr : h.Recalled taken spec) (hs : h.Sound taken first) {head : ForkTree.Node}
    (hhead : h.frontier.tree.nodes[h.frontier.tree.head]? = some head) {slot : UInt64}
    (hfrom : h.ledger.start ≤ slot) (hback : head.entry.state.LooksBack spec slot) :
    ∃ e, Chain.bySlot h slot = .ok e ∧
      head.entry.state.blockRootAt spec slot = .ok e.summary.blockRoot := by
  obtain ⟨path, hbranch, hrecalls⟩ := hr.node hs hhead
  rw [hbranch.unique hs.tree.branch_canonical, ← map_summary_line] at hrecalls
  obtain ⟨_, heq, -, hchronicle⟩ := hs.exists_head
  cases hhead.symm.trans heq
  -- The line has an entry at every slot up to the head.
  have hto : slot.toNat ≤ head.entry.summary.slot.toNat := by
    rw [head.entry.summary_eq]
    exact Nat.le_of_lt (UInt64.lt_iff_toNat_lt.1 hback.earlier)
  rw [hs.ledger.start, UInt64.le_iff_toNat_le] at hfrom
  obtain ⟨s, hmem, rfl⟩ := hchronicle.exists_at_slot hfrom hto
  obtain ⟨e, he, rfl⟩ := List.mem_map.1 hmem
  exact ⟨e, hs.bySlot_iff_mem_line.2 ⟨he, rfl⟩, hrecalls.blockRootAt hmem hback⟩

/-- After any run of calls on a history whose archive may refuse but does not break off: as far as the ring
of the head's state goes back, and not beyond the start of the ledger, it has for every slot the block that
a lookup finds there; and for every node and every ancestor of it in reach, the ring of the node's state has
the block of the ancestor. -/
theorem recalls_of_run (hsteady : Archive.Steady τ) {anchor : Snapshot} {specs : Spec → Prop}
    (hanchor : anchor.state.Reached specs) {archive : τ} (hstart : start anchor spec archive = .ok h)
    (calls : List Call) (hK : CollisionFree (hashed calls h)) :
    (∃ head, (play calls h).frontier.head = .ok (.node head) ∧
      ∀ slot : UInt64, (play calls h).ledger.start ≤ slot → head.state.LooksBack spec slot →
        ∃ e, Chain.bySlot (play calls h) slot = .ok e ∧
          head.state.blockRootAt spec slot = .ok e.summary.blockRoot) ∧
    ∀ (p a : Position) (node ancestor : ForkTree.Node),
      (play calls h).frontier.tree.nodes[p]? = some node →
      (play calls h).frontier.tree.nodes[a]? = some ancestor →
      (play calls h).frontier.tree.Descends p a → node.entry.state.LooksBack spec a.slot →
      node.entry.state.blockRootAt spec a.slot = .ok ancestor.entry.summary.blockRoot := by
  have hs := sound_of_start hsteady hanchor hstart calls hK
  have hr := recalled_of_start hsteady hanchor hstart calls hK
  obtain ⟨head, hnode, hhead, -⟩ := hs.exists_head
  refine ⟨⟨head.entry, hhead, fun slot hfrom hback => hr.head hs hnode hfrom hback⟩, ?_⟩
  intro p a node ancestor hnode hancestor hdown hback
  rw [show ancestor.entry.summary.blockRoot = a.root from
    congrArg Position.root (hs.tree.stored a ancestor hancestor)]
  exact hr.ancestor hs hnode hancestor hdown hback

open Frontier (tinySpec tinyAnchor)

-- The block of the small history recalls the anchor, both by slot and by the tree.
theorem recalls_of_run_tiny :
    CollisionFree (hashed tinyHeaded tinyHistory) ∧
      ∃ head, (play tinyHeaded tinyHistory).frontier.head = .ok (.node head) ∧
        head.state.LooksBack tinySpec 0 ∧
        (∃ e, Chain.bySlot (play tinyHeaded tinyHistory) 0 = .ok e ∧
          head.state.blockRootAt tinySpec 0 = .ok e.summary.blockRoot) ∧
        ∃ ancestor, (play tinyHeaded tinyHistory).frontier.tree.nodes[tinyAnchor.position]? = some ancestor ∧
          head.state.blockRootAt tinySpec 0 = .ok ancestor.entry.summary.blockRoot := by
  have hs :=
    sound_of_start Ledger.tables_steady Frontier.reached_tiny start_tiny tinyHeaded collisionFree_headed
  obtain ⟨⟨head, hhead, hslots⟩, hnodes⟩ :=
    recalls_of_run Ledger.tables_steady Frontier.reached_tiny start_tiny tinyHeaded collisionFree_headed
  obtain ⟨node, hnode, hnodeHead, -⟩ := hs.exists_head
  cases Except.ok.inj (hhead.symm.trans hnodeHead)
  obtain ⟨hheadAt, hanchorAt⟩ := ends_headed
  have hback : node.entry.state.LooksBack tinySpec 0 := by
    have hslot : node.entry.state.slot = 1 := (hs.tree.slot_eq hnode).trans (congrArg Position.slot hheadAt)
    refine ⟨?_, ?_, by decide⟩ <;> rw [hslot] <;> decide
  have hstart : (play tinyHeaded tinyHistory).ledger.start ≤ 0 := by
    rw [hs.ledger.start]
    exact UInt64.le_refl _
  obtain ⟨entry, hanchor⟩ := hs.tree.anchor_node
  have hdown := hs.tree.descends_anchor hs.tree.head_mem
  rw [hanchorAt] at hanchor hdown
  exact ⟨collisionFree_headed, _, hhead, hback, hslots 0 hstart hback, _, hanchor,
    hnodes _ _ _ _ hnode hanchor hdown hback⟩

end History

end BeaconHistory
