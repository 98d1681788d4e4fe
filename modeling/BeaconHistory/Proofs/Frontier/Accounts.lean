import BeaconHistory.Proofs.Frontier.Watched

/-!
# Frontier.Accounts — what becomes of every entry

An entry that was inserted stays until the sink took it or was told that it is pruned.  The books are
kept against the tree that would have grown had the anchor never moved: what was taken is the branch of
the anchor in it, what was pruned lies on other branches, and what is held descends from the anchor.
Main statement: after any run of calls every inserted entry has exactly one of these fates.
-/

namespace BeaconHistory.Frontier

open ForkTree (Node)

variable {σ : Type}

/-! ## 1. What a run inserts -/

-- The nodes that a call puts in, before the anchor moves.
def Call.inserted (c : Call) (f : Frontier σ) : List (Position × Node) :=
  (c.base f).nodes.toList.filter fun item => !f.tree.nodes.contains item.1

theorem Call.mem_inserted_iff {c : Call} {f : Frontier σ} {p : Position} {node : Node} :
    (p, node) ∈ c.inserted f ↔ (c.base f).nodes[p]? = some node ∧ p ∉ f.tree.nodes := by
  unfold inserted
  rw [List.mem_filter, Std.ExtTreeMap.mem_toList_iff_getElem?_eq_some, Bool.not_eq_true',
    Bool.eq_false_iff, Ne, Std.ExtTreeMap.contains_iff_mem]

theorem Call.nodup_inserted (c : Call) (f : Frontier σ) : ((c.inserted f).map Prod.fst).Nodup := by
  have hordered := Std.ExtTreeMap.ordered_keys_toList (t := (c.base f).nodes)
  rw [List.Nodup, List.pairwise_map]
  refine (hordered.sublist List.filter_sublist).imp ?_
  intro x y hlt heq
  rw [heq, Std.compare_self] at hlt
  cases hlt

variable [Sink σ]

/-- The nodes that a run puts in, in the order of the calls. -/
def inserted : List Call → Frontier σ → List (Position × Node)
  | [], _ => []
  | c :: calls, f => c.inserted f ++ inserted calls (c.after f)

theorem inserted_unwatched (calls : List Call) (f : Frontier (Watched σ)) :
    inserted calls f = inserted calls f.unwatched := by
  induction calls generalizing f with
  | nil => rfl
  | cons c calls ih =>
    show c.inserted f ++ inserted calls (c.after f) =
      c.inserted f ++ inserted calls (c.after f.unwatched)
    rw [ih, c.unwatched_after]

/-! ## 2. The books -/

/-- The books of a watched frontier; `w` is the tree that would have grown had the anchor stayed. -/
structure Accounts (w : ForkTree) (f : Frontier (Watched σ)) : Prop where
  whole : w.Sound
  tree : f.tree.Sound
  -- What is held is what descends from the anchor.
  part : f.tree.PartOf w
  -- What was taken leads to the anchor.
  accepted : w.Branch f.sink.accepted f.tree.anchor
  -- What was pruned is on other branches, each entry once.
  pruned : ∀ e : Snapshot, e ∈ f.sink.pruned ↔
    ∃ p node, w.nodes[p]? = some node ∧ node.entry = e ∧ w.Apart p f.tree.anchor
  once : (f.sink.pruned.map Snapshot.position).Nodup

variable {w : ForkTree} {f g : Frontier (Watched σ)}

omit [Sink σ] in
theorem accounts_self (h : f.tree.Sound) (haccepted : f.sink.accepted = []) (hpruned : f.sink.pruned = []) :
    Accounts f.tree f := by
  refine ⟨h, h, .refl h, haccepted ▸ .anchor, fun e => ?_, ?_⟩
  · rw [hpruned]
    refine ⟨fun he => (by cases he), ?_⟩
    rintro ⟨p, node, hnode, -, hnot, -⟩
    exact absurd (h.descends_anchor (Lookup.mem_of_eq_some hnode)) hnot
  · rw [hpruned]
    exact List.nodup_nil

omit [Sink σ] in
/-- Growth opens accounts for the new nodes and leaves those of the old ones. -/
theorem Accounts.grow (h : Accounts w f) {taken : Block → Prop} (hbacked : w.Backed taken)
    (hdistinct : Distinct taken w.anchor.root) (hsteps : ForkTree.Steps taken f.tree g.tree)
    (hsink : g.sink = f.sink) :
    ∃ w', Accounts w' g ∧ ForkTree.PartOf.Grown taken f.tree g.tree w w' := by
  obtain ⟨w', hgrown⟩ := h.part.steps h.tree h.whole hbacked hdistinct hsteps
  have hanchor := hsteps.anchor
  have hsub (p : Position) (node : Node) (hnode : w.nodes[p]? = some node) : w'.nodes[p]? = some node :=
    (hgrown.nodes p node).2 (Or.inl hnode)
  have hwhole := hgrown.steps.sound h.whole
  refine ⟨w', ⟨hwhole, hsteps.sound h.tree, hgrown.part, ?_, fun e => ?_, hsink ▸ h.once⟩, hgrown⟩
  · rw [hsink, hanchor]
    exact h.accepted.of_subset hsub hgrown.steps.anchor
  · rw [hsink, h.pruned, hanchor]
    have hdown {p : Position} {node : Node} (hnode : w.nodes[p]? = some node) (a : Position) :
        w'.Descends p a ↔ w.Descends p a :=
      ForkTree.descends_iff_of_subset h.whole hsub (Lookup.mem_of_eq_some hnode) a
    obtain ⟨anchor, hanchorNode⟩ := (Lookup.mem_iff_exists _ _).1 h.part.anchor_mem
    constructor
    · rintro ⟨p, node, hnode, he, hnot, hnot'⟩
      exact ⟨p, node, hsub p node hnode, he, mt (hdown hnode _).1 hnot, mt (hdown hanchorNode _).1 hnot'⟩
    · rintro ⟨p, node, hnode, he, hnot, hnot'⟩
      rcases (hgrown.nodes p node).1 hnode with hold | ⟨hnew, -⟩
      · exact ⟨p, node, hold, he, mt (hdown hold _).2 hnot, mt (hdown hanchorNode _).2 hnot'⟩
      · -- A new node descends from the anchor.
        have hmem := (hgrown.part.mem_iff.1 (Lookup.mem_of_eq_some hnew)).2
        rw [hanchor] at hmem
        exact absurd hmem hnot

section

variable (h : Accounts w f) {a : Position} (ha : a ∈ f.tree.nodes)

include h ha

omit [Sink σ]

-- What was pruned before is on other branches still, and what is pruned now is on other branches then.
theorem Accounts.mem_pruned_iff {e : Snapshot} :
    e ∈ f.sink.pruned ++ (f.tree.reanchor a).2 ↔
      ∃ p node, w.nodes[p]? = some node ∧ node.entry = e ∧ w.Apart p a := by
  have hdown := (h.part.mem_iff.1 ha).2
  rw [List.mem_append, h.pruned, h.part.pruned_iff h.tree h.whole ha]
  constructor
  · rintro (⟨p, old, hold, he, hapart⟩ | ⟨p, old, hold, he, -, hapart⟩)
    · exact ⟨p, old, hold, he, hdown.apart_iff.2 (Or.inl hapart)⟩
    · exact ⟨p, old, hold, he, hapart⟩
  · rintro ⟨p, old, hold, he, hapart⟩
    rcases hdown.apart_iff.1 hapart with hbefore | hafter
    · exact Or.inl ⟨p, old, hold, he, hbefore⟩
    · exact Or.inr ⟨p, old, hold, he, hafter⟩

theorem Accounts.nodup_pruned :
    ((f.sink.pruned ++ (f.tree.reanchor a).2).map Snapshot.position).Nodup := by
  rw [List.map_append, List.nodup_append]
  refine ⟨h.once, ForkTree.nodup_pruned h.tree a, ?_⟩
  -- What was pruned before is no longer held, so it is not pruned again.
  intro p hp q hq hpq
  obtain ⟨e, he, rfl⟩ := List.mem_map.1 hp
  obtain ⟨e', he', rfl⟩ := List.mem_map.1 hq
  obtain ⟨p, node, hnode, rfl, hnot, -⟩ := (h.pruned e).1 he
  obtain ⟨q, node', hnode', rfl, -, -⟩ := (ForkTree.mem_pruned_iff h.tree ha).1 he'
  rw [h.whole.stored p node hnode, h.tree.stored q node' hnode'] at hpq
  have hq : q ∈ f.tree.nodes := Lookup.mem_of_eq_some hnode'
  exact hnot (hpq ▸ (h.part.mem_iff.1 hq).2)

end

/-- Handing over a branch closes the accounts of what was taken and of what then lies on other
branches. -/
theorem Accounts.settle (h : Accounts w f) {path : List Snapshot} {target : Position}
    (hpath : f.tree.Branch path target)
    (htree : g.tree = settled (handOver path f.sink).accepted f.tree)
    (hsink : g.sink =
      pruneAll (outcast (handOver path f.sink).accepted f.tree) (handOver path f.sink).sink) :
    Accounts w g ∧ f.tree.Descends target g.tree.anchor := by
  obtain ⟨-, haccepted, hpruned⟩ := handOver_watched path f.sink
  rw [pruneAll_watched] at hsink
  obtain ⟨a, hbranch, hdescends, hsettles⟩ :=
    exists_settles h.tree hpath (prefix_accepted path f.sink)
  have hline := h.part.branch h.whole h.accepted hbranch
  cases hsettles with
  | stays hnone heq hout =>
    rw [heq] at htree
    rw [hout, List.append_nil, haccepted, hpruned, hnone, List.append_nil] at hsink
    refine ⟨⟨h.whole, htree ▸ h.tree, htree ▸ h.part, ?_, ?_, ?_⟩, htree ▸ hdescends⟩
    · rw [hsink, htree]
      exact h.accepted
    · rw [hsink, htree]
      exact h.pruned
    · rw [hsink]
      exact h.once
  | @moves _ node hnode _ hslot heq hout =>
    rw [heq] at htree
    rw [hout, haccepted, hpruned] at hsink
    have ha : a ∈ f.tree.nodes := Lookup.mem_of_eq_some hnode
    have hanchor : g.tree.anchor = a := by rw [htree, ForkTree.anchor_reanchor]
    refine ⟨⟨h.whole, htree ▸ h.tree.reanchor ha hslot, htree ▸ h.part.reanchor h.tree h.whole ha,
      ?_, fun e => ?_, ?_⟩, hanchor ▸ hdescends⟩
    · rw [hsink, hanchor]
      exact hline
    · rw [hsink, hanchor]
      exact h.mem_pruned_iff ha
    · rw [hsink]
      exact h.nodup_pruned ha

/-! ## 3. Calls -/

/-- The books are kept, and `w'` has the nodes of `w` and those that were inserted. -/
structure Keeps (taken : Block → Prop) (w w' : ForkTree) (inserted : List (Position × Node))
    (g : Frontier (Watched σ)) : Prop where
  accounts : Accounts w' g
  backed : w'.Backed taken
  anchor : w'.anchor = w.anchor
  nodes : ∀ (p : Position) (node : Node),
    w'.nodes[p]? = some node ↔ w.nodes[p]? = some node ∨ (p, node) ∈ inserted
  fresh : ∀ item ∈ inserted, item.1 ∉ w.nodes

theorem Accounts.call (h : Accounts w f) {taken : Block → Prop} (hbacked : w.Backed taken)
    (hdistinct : Distinct taken w.anchor.root) (hsteady : Sink.Steady σ) (c : Call)
    (hK : CollisionFree (c.hashed f)) (htaken : ∀ b ∈ c.accepted f, taken b) :
    ∃ w', Keeps taken w w' (c.inserted f) (c.after f) := by
  -- Whatever the call does, the tree first grows by what it inserts.
  have hkeeps {u : ForkTree} {w' : ForkTree} (hnodes : u.nodes = (c.base f).nodes)
      (hanchor : u.anchor = f.tree.anchor)
      (hgrown : ForkTree.PartOf.Grown taken f.tree u w w') (haccounts : Accounts w' (c.after f)) :
      Keeps taken w w' (c.inserted f) (c.after f) := by
    refine ⟨haccounts, hgrown.steps.backed h.whole hbacked, hgrown.steps.anchor, fun p node => ?_, ?_⟩
    · rw [hgrown.nodes, Call.mem_inserted_iff, hnodes]
    · rintro ⟨p, node⟩ hitem hmem
      obtain ⟨hnode, hnot⟩ := Call.mem_inserted_iff.1 hitem
      have hp : p ∈ u.nodes := Lookup.mem_of_eq_some (hnodes ▸ hnode)
      -- What was dropped does not descend from the anchor, so it is not what comes in.
      have hdown := (hgrown.part.mem_iff.1 hp).2
      rw [ForkTree.descends_iff_of_subset h.whole
        (fun p node hnode => (hgrown.nodes p node).2 (Or.inl hnode)) hmem, hanchor] at hdown
      exact hnot (h.part.mem_iff.2 ⟨hmem, hdown⟩)
  have hmove := (c.move h.tree hK).mono htaken
  cases hmove with
  | grow hsteps hnodes hsink =>
    obtain ⟨w', haccounts, hgrown⟩ := h.grow hbacked hdistinct hsteps hsink
    exact ⟨w', hkeeps hnodes hsteps.anchor hgrown haccounts⟩
  | @settle target path hsprouting hpath htree hsink =>
    obtain ⟨w', haccounts, hgrown⟩ := h.grow (g := { f with tree := c.base f }) hbacked hdistinct
      (hsprouting.steps taken) rfl
    exact ⟨w', hkeeps rfl hsprouting.anchor hgrown (haccounts.settle hpath htree hsink).1⟩
  | broke hsprouting htree _ hcause =>
    have hsink : (c.after f).sink = f.sink := by
      rcases hcause with ⟨hsink, -⟩ | ⟨path, entry, fault, hstopped⟩
      · exact hsink
      · exact absurd hstopped (stopped_ne_broke (Watched.steady hsteady) path f.sink entry fault)
    obtain ⟨w', haccounts, hgrown⟩ := h.grow (g := c.after f) hbacked hdistinct
      (htree ▸ hsprouting.steps taken) hsink
    exact ⟨w', hkeeps (congrArg ForkTree.nodes htree) (htree ▸ hsprouting.anchor) hgrown haccounts⟩

/-- The books are kept over any run, and nothing is inserted twice. -/
theorem Accounts.play (h : Accounts w f) {taken : Block → Prop} (hbacked : w.Backed taken)
    (hdistinct : Distinct taken w.anchor.root) (hsteady : Sink.Steady σ) (calls : List Call)
    (hK : CollisionFree (hashed calls f)) (htaken : ∀ b ∈ Frontier.accepted calls f, taken b) :
    (∃ w', Keeps taken w w' (inserted calls f) (Frontier.play calls f)) ∧
      ((inserted calls f).map Prod.fst).Nodup := by
  induction calls generalizing w f with
  | nil =>
    refine ⟨⟨w, h, hbacked, rfl, fun p node => ?_, fun item hitem => (by cases hitem)⟩, List.nodup_nil⟩
    exact ⟨Or.inl, fun hnode => hnode.resolve_right fun hitem => (by cases hitem)⟩
  | cons c calls ih =>
    obtain ⟨htakenNow, htakenLater⟩ := List.forall_mem_append.1 htaken
    obtain ⟨v, hstep⟩ := h.call hbacked hdistinct hsteady c hK.left htakenNow
    obtain ⟨⟨w', hrest⟩, hnodup⟩ :=
      ih hstep.accounts hstep.backed (hstep.anchor ▸ hdistinct) hK.right htakenLater
    have hkept {p : Position} (hp : p ∈ w.nodes) : p ∈ v.nodes := by
      obtain ⟨node, hnode⟩ := (Lookup.mem_iff_exists _ _).1 hp
      exact Lookup.mem_of_eq_some ((hstep.nodes p node).2 (Or.inl hnode))
    refine ⟨⟨w', hrest.accounts, hrest.backed, hrest.anchor.trans hstep.anchor, fun p node => ?_, ?_⟩, ?_⟩
    · rw [hrest.nodes, hstep.nodes, or_assoc]
      exact or_congr_right List.mem_append.symm
    · intro item hitem
      rcases List.mem_append.1 hitem with hitem | hitem
      · exact hstep.fresh item hitem
      · exact fun hp => hrest.fresh item hitem (hkept hp)
    · show ((c.inserted f ++ inserted calls (c.after f)).map Prod.fst).Nodup
      rw [List.map_append, List.nodup_append]
      refine ⟨c.nodup_inserted f, hnodup, ?_⟩
      intro p hp q hq hpq
      obtain ⟨⟨p, node⟩, hitem, rfl⟩ := List.mem_map.1 hp
      obtain ⟨item, hitem', rfl⟩ := List.mem_map.1 hq
      refine hrest.fresh item hitem' ?_
      rw [← hpq]
      exact Lookup.mem_of_eq_some ((hstep.nodes p node).2 (Or.inr hitem))

/-- The books of a frontier can be opened at any time. -/
theorem exists_keeps {f : Frontier σ} (ht : f.tree.Sound) {taken : Block → Prop}
    (hbacked : f.tree.Backed taken) (hdistinct : Distinct taken f.tree.anchor.root)
    (hsteady : Sink.Steady σ) (calls : List Call) (hK : CollisionFree (hashed calls f))
    (htaken : ∀ b ∈ Frontier.accepted calls f, taken b) :
    (∃ w, Keeps taken f.tree w (inserted calls f) (play calls f.watched)) ∧
      ((inserted calls f).map Prod.fst).Nodup := by
  have hbooks : Accounts f.tree f.watched := accounts_self (f := f.watched) ht rfl rfl
  have hplay := hbooks.play hbacked hdistinct hsteady calls
  rw [hashed_unwatched, accepted_unwatched, inserted_unwatched] at hplay
  exact hplay hK htaken

end BeaconHistory.Frontier
