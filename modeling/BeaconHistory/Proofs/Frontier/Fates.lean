import BeaconHistory.Proofs.ForkTree.Lookups
import BeaconHistory.Proofs.Frontier.Accounts
import Mathlib.Logic.ExistsUnique

/-!
# Frontier.Fates — handed over exactly once

Main statement: over any run the sink takes one entry for each slot from the first anchor to the current
one, each the child of the one before, and every entry that was inserted is either held, or was taken
once, or was pruned once; an entry that the sink rejects is held.
-/

namespace BeaconHistory.Frontier

open ForkTree (Node)

variable {σ : Type}

/-! ## 1. Fates -/

/-- What may have become of an entry. -/
inductive Fate where
  | held
  | accepted
  | pruned

-- How often the sink was told of an entry at a position.
def times (p : Position) (entries : List Snapshot) : Nat := (entries.map Snapshot.position).count p

/-- The frontier and the notes on its sink show this fate of the node `node` inserted at `p`. -/
def Fate.Shown (g : Frontier (Watched σ)) (p : Position) (node : Node) : Fate → Prop
  | held => g.tree.nodes[p]? = some node ∧ g.tree.anchor.slot < p.slot ∧
      times p g.sink.accepted = 0 ∧ times p g.sink.pruned = 0
  | accepted => node.entry ∈ g.sink.accepted ∧ times p g.sink.accepted = 1 ∧
      times p g.sink.pruned = 0 ∧ (p = g.tree.anchor ∨ p ∉ g.tree.nodes)
  | pruned => node.entry ∈ g.sink.pruned ∧ times p g.sink.pruned = 1 ∧
      times p g.sink.accepted = 0 ∧ p ∉ g.tree.nodes

theorem Fate.shown_unique {g : Frontier (Watched σ)} {p : Position} {node : Node} {x y : Fate}
    (hx : x.Shown g p node) (hy : y.Shown g p node) : x = y := by
  cases x with
  | held =>
    obtain ⟨-, -, haccepted, hpruned⟩ := hx
    cases y with
    | held => rfl
    | accepted => exact absurd (haccepted.symm.trans hy.2.1) (by decide)
    | pruned => exact absurd (hpruned.symm.trans hy.2.1) (by decide)
  | accepted =>
    obtain ⟨-, haccepted, hpruned, -⟩ := hx
    cases y with
    | held => exact absurd (hy.2.2.1.symm.trans haccepted) (by decide)
    | accepted => rfl
    | pruned => exact absurd (hpruned.symm.trans hy.2.1) (by decide)
  | pruned =>
    obtain ⟨-, hpruned, haccepted, -⟩ := hx
    cases y with
    | held => exact absurd (hy.2.2.2.symm.trans hpruned) (by decide)
    | accepted => exact absurd (hy.2.2.1.symm.trans hpruned) (by decide)
    | pruned => rfl

theorem times_eq_zero {p : Position} {entries : List Snapshot}
    (h : ∀ e ∈ entries, e.position ≠ p) : times p entries = 0 := by
  refine List.count_eq_zero.2 fun hmem => ?_
  obtain ⟨e, he, heq⟩ := List.mem_map.1 hmem
  exact h e he heq

theorem times_eq_one {entries : List Snapshot} (hnodup : (entries.map Snapshot.position).Nodup)
    {e : Snapshot} (he : e ∈ entries) : times e.position entries = 1 := by
  have hle := List.nodup_iff_count.1 hnodup e.position
  have hpos := List.count_pos_iff.2 (List.mem_map_of_mem (f := Snapshot.position) he)
  exact Nat.le_antisymm hle hpos

/-! ## 2. The line that is handed over -/

/-- `entries` lead from `a` to `p`, each the child of the one before among the nodes `born`. -/
inductive Line (born : List (Position × Node)) (a : Position) : List Snapshot → Position → Prop where
  | start : Line born a [] a
  | next {entries : List Snapshot} {p q : Position} {node : Node} (h : Line born a entries q)
      (hborn : (p, node) ∈ born) (hparent : node.parent = some q) :
      Line born a (entries ++ [node.entry]) p

/-- What the sink took, starting from `a`: an entry for each slot up to that of the current anchor,
in a line that ends there. -/
structure HandsOver (a : Position) (born : List (Position × Node)) (g : Frontier (Watched σ)) :
    Prop where
  slots : g.sink.accepted.map (fun e => e.summary.slot.toNat) =
    List.range' (a.slot.toNat + 1) (g.tree.anchor.slot.toNat - a.slot.toNat)
  line : Line born a g.sink.accepted g.tree.anchor
  last : (g.sink.accepted.getLast?.map Snapshot.position).getD a = g.tree.anchor

/-! ## 3. What the books show -/

namespace Accounts

variable {w : ForkTree} {g : Frontier (Watched σ)}

theorem handsOver (h : Accounts w g) {born : List (Position × Node)}
    (hborn : ∀ p node, w.nodes[p]? = some node → p ≠ w.anchor → (p, node) ∈ born) :
    HandsOver w.anchor born g := by
  refine ⟨h.accepted.slots h.whole, ?_, ?_⟩
  · have hline {path : List Snapshot} {p : Position} (hpath : w.Branch path p) :
        Line born w.anchor path p := by
      induction hpath with
      | anchor => exact .start
      | child _ hnode hne hparent ih => exact .next ih (hborn _ _ hnode hne) hparent
    exact hline h.accepted
  · by_cases hanchor : g.tree.anchor = w.anchor
    · have hnone : w.Branch [] g.tree.anchor := by
        rw [hanchor]
        exact .anchor
      rw [h.accepted.unique hnone, hanchor]
      rfl
    · obtain ⟨node, hnode, hlast⟩ := h.accepted.getLast? hanchor
      rw [hlast, Option.map_some, Option.getD_some]
      exact h.whole.stored _ _ hnode

-- The sink took the entries between the first anchor and the current one.
theorem mem_accepted_iff (h : Accounts w g) {p : Position} {node : Node} (hnode : w.nodes[p]? = some node) :
    node.entry ∈ g.sink.accepted ↔ w.Descends g.tree.anchor p ∧ p ≠ w.anchor := by
  constructor
  · intro hmem
    obtain ⟨q, node', hdown, hnode', hne, hentry⟩ := h.accepted.exists_node hmem
    have hq : q = p := by
      rw [← h.whole.stored q node' hnode', ← h.whole.stored p node hnode, hentry]
    exact hq ▸ ⟨hdown, hne⟩
  · rintro ⟨hdown, hne⟩
    exact h.whole.mem_of_descends h.accepted hdown hnode hne

theorem exists_of_mem_accepted (h : Accounts w g) {e : Snapshot} (he : e ∈ g.sink.accepted) :
    ∃ p node, w.nodes[p]? = some node ∧ node.entry = e ∧ p ≠ w.anchor := by
  obtain ⟨p, node, -, hnode, hne, hentry⟩ := h.accepted.exists_node he
  exact ⟨p, node, hnode, hentry, hne⟩

theorem nodup_accepted (h : Accounts w g) : (g.sink.accepted.map Snapshot.position).Nodup := by
  have hslots : (g.sink.accepted.map fun e => e.summary.slot.toNat).Nodup := by
    rw [h.accepted.slots h.whole]
    exact List.nodup_range'
  rw [List.Nodup, List.pairwise_map] at hslots ⊢
  exact hslots.imp fun hne heq => hne (congrArg (fun p => p.slot.toNat) heq)

theorem times_accepted (h : Accounts w g) {p : Position} {node : Node} (hnode : w.nodes[p]? = some node)
    (hnot : ¬ (w.Descends g.tree.anchor p ∧ p ≠ w.anchor)) : times p g.sink.accepted = 0 := by
  refine times_eq_zero fun e he heq => hnot ((h.mem_accepted_iff hnode).1 ?_)
  obtain ⟨q, node', hnode', rfl, -⟩ := h.exists_of_mem_accepted he
  rw [h.whole.stored q node' hnode'] at heq
  rw [heq, hnode] at hnode'
  cases hnode'
  exact he

theorem times_pruned (h : Accounts w g) {p : Position} (hnot : ¬ w.Apart p g.tree.anchor) :
    times p g.sink.pruned = 0 := by
  refine times_eq_zero fun e he heq => ?_
  obtain ⟨q, node', hnode', rfl, hapart⟩ := (h.pruned e).1 he
  rw [h.whole.stored q node' hnode'] at heq
  exact hnot (heq ▸ hapart)

/-- Every node but the first anchor has a fate. -/
theorem exists_fate (h : Accounts w g) {p : Position} {node : Node} (hnode : w.nodes[p]? = some node)
    (hne : p ≠ w.anchor) : ∃ fate : Fate, fate.Shown g p node := by
  have hp : p ∈ w.nodes := Lookup.mem_of_eq_some hnode
  have hstored := h.whole.stored p node hnode
  by_cases hdown : w.Descends p g.tree.anchor
  · have hapart : ¬ w.Apart p g.tree.anchor := fun hapart => hapart.1 hdown
    by_cases hanchor : p = g.tree.anchor
    · have hmem := (h.mem_accepted_iff hnode).2 ⟨hanchor ▸ ForkTree.descends_refl w p, hne⟩
      exact ⟨.accepted, hmem, hstored ▸ times_eq_one h.nodup_accepted hmem, h.times_pruned hapart,
        Or.inl hanchor⟩
    · have hslot := h.whole.slot_lt_of_descends hp hdown hanchor
      have hheld : g.tree.nodes[p]? = some node :=
        (h.part.nodes p node).2 ⟨node, hnode, hdown, (if_neg hanchor).symm⟩
      refine ⟨.held, hheld, hslot, h.times_accepted hnode ?_, h.times_pruned hapart⟩
      rintro ⟨hup, -⟩
      have hle := h.whole.slot_le_of_descends h.part.anchor_mem hup
      rw [UInt64.lt_iff_toNat_lt] at hslot
      omega
  · have hgone : p ∉ g.tree.nodes := fun hmem => hdown (h.part.mem_iff.1 hmem).2
    by_cases hup : w.Descends g.tree.anchor p
    · have hmem := (h.mem_accepted_iff hnode).2 ⟨hup, hne⟩
      exact ⟨.accepted, hmem, hstored ▸ times_eq_one h.nodup_accepted hmem,
        h.times_pruned fun hapart => hapart.2 hup, Or.inr hgone⟩
    · have hmem := (h.pruned node.entry).2 ⟨p, node, hnode, rfl, hdown, hup⟩
      exact ⟨.pruned, hmem, hstored ▸ times_eq_one h.once hmem,
        h.times_accepted hnode fun haccepted => hup haccepted.1, hgone⟩

/-- A block was pruned exactly if the tree does not hold it and nothing that carries it was taken. -/
theorem mem_pruned_iff_gone (h : Accounts w g) {root : Root} {e : Snapshot} (he : w.block? root = some e) :
    e ∈ g.sink.pruned ↔
      g.tree.block? root = none ∧ ∀ e' ∈ g.sink.accepted, e'.summary.blockRoot ≠ root := by
  obtain ⟨-, hcarried, hblock⟩ := h.whole.block?_eq_some_iff_unfinalized.1 he
  obtain ⟨p, node, hp, hne, hnode, rfl⟩ := h.whole.block?_eq_some_iff.1 he
  -- Whatever carries the block descends from it.
  have hcarries {q : Position} (hq : q ∈ w.nodes) (hroot : q.root = root) : w.Descends q p := by
    obtain ⟨origin, horigin, -, hclimb⟩ := h.whole.exists_origin hq
    rw [hroot, hp] at horigin
    cases horigin
    exact ⟨_, hclimb⟩
  constructor
  · intro hpruned
    obtain ⟨p', node', hnode', hentry, hdown, hup⟩ := (h.pruned _).1 hpruned
    have hsame : p' = p := by
      rw [← h.whole.stored p' node' hnode', hentry, h.whole.stored p node hnode]
    subst hsame
    constructor
    · refine Option.eq_none_iff_forall_ne_some.2 fun e' he' => ?_
      obtain ⟨q, -, hq, -⟩ := h.tree.block?_eq_some_iff.1 he'
      obtain ⟨hmem, hbelow⟩ := h.part.mem_iff.1 (h.tree.mem_of_blocks hq)
      exact ((hcarries hmem (h.tree.root_of_blocks hq)).total hbelow).elim hdown hup
    · intro e' he' hroot
      obtain ⟨q, node', hdescends, hnode', -, rfl⟩ := h.accepted.exists_node he'
      rw [show node'.entry.summary.blockRoot = q.root from
        congrArg Position.root (h.whole.stored q node' hnode')] at hroot
      exact hup (hdescends.trans (hcarries (Lookup.mem_of_eq_some hnode') hroot))
  · rintro ⟨hfree, hnone⟩
    obtain ⟨fate, hfate⟩ := h.exists_fate hnode hne
    cases fate with
    | held =>
      obtain ⟨hheld, hslot, -, -⟩ := hfate
      have hafter : p ≠ g.tree.anchor := by
        rintro rfl
        exact UInt64.lt_irrefl _ hslot
      rw [h.tree.block?_eq_some_iff_unfinalized.2 ⟨⟨p, node, hheld, hafter, rfl⟩, hcarried, hblock⟩] at hfree
      cases hfree
    | accepted => exact absurd hcarried (hnone _ hfate.1)
    | pruned => exact hfate.1

end Accounts

/-! ## 4. Rejections -/

variable [Sink σ]

-- The entry that stopped a hand-over comes right after those that were taken.
theorem handOver_stopped {path : List Snapshot} {sink : σ} {entry : Snapshot} {failure : Failure Rejection}
    (h : (handOver path sink).stopped = some (entry, failure)) :
    (handOver path sink).accepted ++ [entry] <+: path := by
  induction path generalizing sink with
  | nil => cases h
  | cons first path ih =>
    unfold handOver at h ⊢
    cases hoffer : Sink.offer first sink with
    | ok _ sink' =>
      rw [hoffer] at h
      exact List.prefix_cons_iff.2 (Or.inr ⟨_, rfl, ih h⟩)
    | error failure' sink' =>
      rw [hoffer] at h
      cases h
      exact List.prefix_cons_iff.2 (Or.inr ⟨[], rfl, List.nil_prefix⟩)

/-- An entry that is rejected stays, as a child of the anchor: it comes first when a branch that it is
on is handed over again. -/
theorem Call.held_of_rejected {f : Frontier σ} (c : Call) (ht : f.tree.Sound)
    (hK : CollisionFree (c.hashed f)) (hopen : f.poisoned = false) {p : Position}
    {rejection : Rejection} (h : c.outcome f = .error (.refused (.sink p rejection))) :
    ∃ node, (c.after f).tree.nodes[p]? = some node ∧ node.parent = some (c.after f).tree.anchor := by
  obtain ⟨hgrown, path, target, entry, hpath, hposition, hstopped, htree⟩ := c.rejected ht hK hopen h
  have hu := hgrown.sound ht
  have htaken := (handOver_stopped hstopped)
  obtain ⟨a, hbranch, -, hsettles⟩ := exists_settles hu hpath (prefix_accepted path f.sink)
  obtain ⟨q, hnext, -⟩ := hpath.of_prefix htaken
  -- The branch up to the rejected entry ends with it, and is the one that was taken before.
  obtain ⟨b, node, hbefore, hnode, hentry, hparent⟩ := hnext.of_concat
  have hq : q = p := by rw [← hu.stored q node hnode, hentry, hposition]
  subst hq
  have hb : b = a := (hbranch.end_unique hu hbefore).symm
  subst hb
  refine ⟨node, ?_, ?_⟩
  · rw [htree]
    exact hsettles.node_of_parent hu hnode hparent
  · rw [htree, hsettles.anchor, hparent]

/-! ## 5. Runs -/

/-- What is inserted in a run, `born`, is accounted for on the watched frontier `g` after it. -/
structure Accounted (a : Position) (born : List (Position × Node)) (g : Frontier (Watched σ)) :
    Prop where
  handsOver : HandsOver a born g
  -- No position is inserted twice.
  once : (born.map Prod.fst).Nodup
  fate : ∀ item ∈ born, ∃! fate : Fate, fate.Shown g item.1 item.2
  -- Nothing else is held, was taken or pruned.
  held : ∀ p node, g.tree.nodes[p]? = some node → p ≠ g.tree.anchor → (p, node) ∈ born
  accepted : ∀ e ∈ g.sink.accepted, ∃ item ∈ born, item.2.entry = e
  pruned : ∀ e ∈ g.sink.pruned, ∃ item ∈ born, item.2.entry = e

omit [Sink σ] in
theorem Accounts.accounted {w : ForkTree} {g : Frontier (Watched σ)} (h : Accounts w g)
    {born : List (Position × Node)} (honce : (born.map Prod.fst).Nodup)
    (hborn : ∀ p node, (p, node) ∈ born ↔ w.nodes[p]? = some node ∧ p ≠ w.anchor) :
    Accounted w.anchor born g := by
  refine ⟨h.handsOver fun p node hnode hne => (hborn p node).2 ⟨hnode, hne⟩, honce, ?_, ?_, ?_, ?_⟩
  · rintro ⟨p, node⟩ hitem
    obtain ⟨hnode, hne⟩ := (hborn p node).1 hitem
    obtain ⟨fate, hfate⟩ := h.exists_fate hnode hne
    exact ⟨fate, hfate, fun _ hother => Fate.shown_unique hother hfate⟩
  · intro p node hnode hne
    refine (hborn p node).2 ⟨h.part.node_of_ne hnode hne, ?_⟩
    rintro rfl
    have hmem := h.part.mem_iff.1 (Lookup.mem_of_eq_some hnode)
    have hlt := UInt64.lt_iff_toNat_lt.1 (h.whole.slot_lt_of_descends hmem.1 hmem.2 hne)
    have hle := h.whole.anchor_slot_le h.part.anchor_mem
    omega
  · intro e he
    obtain ⟨p, node, hnode, hentry, hne⟩ := h.exists_of_mem_accepted he
    exact ⟨(p, node), (hborn p node).2 ⟨hnode, hne⟩, hentry⟩
  · intro e he
    obtain ⟨p, node, hnode, hentry, -, hup⟩ := (h.pruned e).1 he
    refine ⟨(p, node), (hborn p node).2 ⟨hnode, ?_⟩, hentry⟩
    rintro rfl
    exact hup (h.whole.descends_anchor h.part.anchor_mem)

omit [Sink σ] in
-- What the tree holds was inserted, and being held is its fate.
theorem Accounted.held_of_node {a : Position} {born : List (Position × Node)} {g : Frontier (Watched σ)}
    (h : Accounted a born g) {p : Position} {node : Node} (hnode : g.tree.nodes[p]? = some node)
    (hne : p ≠ g.tree.anchor) : (p, node) ∈ born ∧ Fate.held.Shown g p node := by
  have hborn := h.held p node hnode hne
  have hmem : p ∈ g.tree.nodes := Lookup.mem_of_eq_some hnode
  obtain ⟨fate, hfate, -⟩ := h.fate _ hborn
  refine ⟨hborn, ?_⟩
  cases fate with
  | held => exact hfate
  | accepted => exact (hfate.2.2.2.elim hne (absurd hmem)).elim
  | pruned => exact absurd hmem hfate.2.2.2

theorem accounted_play (hsteady : Sink.Steady σ) (spec : Spec) (sink : σ) {anchor : Snapshot}
    {specs : Spec → Prop} (hanchor : anchor.state.Reached specs) (calls : List Call)
    (hK : CollisionFree (hashed calls (plant anchor sink spec))) :
    Accounted anchor.position (inserted calls (plant anchor sink spec))
      (play calls (plant anchor sink spec).watched) := by
  have htree := ForkTree.sound_plant spec hanchor.aged
  have hbacked (taken : Block → Prop) : (ForkTree.plant spec anchor).Backed taken :=
    fun p node hnode hne => absurd (ForkTree.nodes_plant_iff.1 hnode).1.symm hne
  obtain ⟨⟨w, hkeeps⟩, honce⟩ := exists_keeps (f := plant anchor sink spec) htree (hbacked _)
    (distinct_accepted calls htree rfl hK) hsteady calls hK fun _ hb => hb
  have hwhole : w.anchor = anchor.position := hkeeps.anchor
  refine hwhole ▸ hkeeps.accounts.accounted honce fun p node => ?_
  rw [hkeeps.nodes, hwhole]
  constructor
  · intro hitem
    refine ⟨Or.inr hitem, ?_⟩
    rintro rfl
    exact hkeeps.fresh _ hitem htree.anchor_mem
  · rintro ⟨hold | hitem, hne⟩
    · exact absurd (ForkTree.nodes_plant_iff.1 hold).1.symm hne
    · exact hitem

/-- Over any run of calls, with any sink that does not break off: the sink takes an entry for each slot
from the first anchor to the current one, in a line that ends at the current one; and every inserted
entry is held, taken once or pruned once, and nothing else is.  An entry that the sink rejects is held,
as a child of the anchor.  What the sink is told is noted by watching it, which changes nothing, neither
what is done nor what is answered. -/
theorem accounted_of_run (hsteady : Sink.Steady σ) (spec : Spec) (sink : σ) {anchor : Snapshot}
    {specs : Spec → Prop} (hanchor : anchor.state.Reached specs) (calls : List Call)
    (hK : CollisionFree (hashed calls (plant anchor sink spec))) :
    (play calls (plant anchor sink spec).watched).unwatched = play calls (plant anchor sink spec) ∧
      (∀ c : Call, c.outcome (play calls (plant anchor sink spec).watched) =
        c.outcome (play calls (plant anchor sink spec))) ∧
      Accounted anchor.position (inserted calls (plant anchor sink spec))
        (play calls (plant anchor sink spec).watched) ∧
      ∀ (c : Call) (p : Position) (rejection : Rejection),
        CollisionFree (hashed (calls ++ [c]) (plant anchor sink spec)) →
        c.outcome (play calls (plant anchor sink spec)) = .error (.refused (.sink p rejection)) →
        ∃ node, (p, node) ∈ inserted (calls ++ [c]) (plant anchor sink spec) ∧
          node.parent = some (play (calls ++ [c]) (plant anchor sink spec)).tree.anchor ∧
          Fate.held.Shown (play (calls ++ [c]) (plant anchor sink spec).watched) p node := by
  have hunwatched := unwatched_play calls (plant anchor sink spec).watched
  refine ⟨hunwatched, fun c => (c.outcome_unwatched _).trans (congrArg c.outcome hunwatched),
    accounted_play hsteady spec sink hanchor calls hK, ?_⟩
  intro c p rejection hKc hrejected
  have haccounted := accounted_play hsteady spec sink hanchor (calls ++ [c]) hKc
  have hopen := c.opened_of_outcome (f := play calls (plant anchor sink spec)) (by rw [hrejected]; simp)
  have htree := ForkTree.sound_plant spec hanchor.aged
  have hsound := sound_play (calls ++ [c]) htree hKc
  rw [hashed_append] at hKc
  obtain ⟨node, hnode, hparent⟩ := c.held_of_rejected (sound_play calls htree hKc.left) hKc.right.left
    hopen hrejected
  rw [← play_concat] at hnode hparent
  -- The watched run has the same tree.
  have hsame : (play (calls ++ [c]) (plant anchor sink spec).watched).tree =
      (play (calls ++ [c]) (plant anchor sink spec)).tree :=
    congrArg Frontier.tree (unwatched_play (calls ++ [c]) (plant anchor sink spec).watched)
  rw [← hsame] at hnode hparent hsound ⊢
  obtain ⟨hborn, hheld⟩ := haccounted.held_of_node hnode (hsound.ne_anchor_of_parent hnode hparent)
  exact ⟨node, hborn, hparent, hheld⟩

/-- Of the blocks that a tree holds, a run prunes exactly those that the tree no longer holds after it
and that nothing carries which was taken in it. -/
theorem pruned_iff_gone {f : Frontier σ} (hsteady : Sink.Steady σ) (ht : f.tree.Sound)
    (hopen : f.poisoned = false) {taken : Block → Prop} (hbacked : f.tree.Backed taken)
    (hunique : ∀ b b', taken b → taken b' → b.root = b'.root → b = b') (calls : List Call)
    (hK : CollisionFree (hashed calls f)) (htaken : ∀ b ∈ Frontier.accepted calls f, taken b)
    {root : Root} {e : Snapshot} (he : f.tree.block? root = some e) :
    e ∈ (play calls f.watched).sink.pruned ↔ (play calls f.watched).tree.block? root = none ∧
      ∀ e' ∈ (play calls f.watched).sink.accepted, e'.summary.blockRoot ≠ root := by
  have hforeign := (distinct_accepted calls ht hopen hK).foreign
  have hdistinct : Distinct (fun b => taken b ∧ b.root ≠ f.tree.anchor.root) f.tree.anchor.root :=
    ⟨fun b b' hb hb' => hunique b b' hb.1 hb'.1, fun b hb => hb.2⟩
  obtain ⟨⟨w, hkeeps⟩, -⟩ := exists_keeps ht (hbacked.foreign ht) hdistinct hsteady calls hK
    fun b hb => ⟨htaken b hb, hforeign b hb⟩
  refine hkeeps.accounts.mem_pruned_iff_gone ?_
  -- The block is where it was in the tree that would have grown.
  obtain ⟨⟨p, node, hnode, hne, rfl⟩, hrest⟩ := ht.block?_eq_some_iff_unfinalized.1 he
  refine hkeeps.accounts.whole.block?_eq_some_iff_unfinalized.2 ⟨⟨p, node, ?_, ?_, rfl⟩, hrest⟩
  · exact (hkeeps.nodes p node).2 (Or.inl hnode)
  · exact hkeeps.anchor ▸ hne

-- What the sink is told of the fork, over the whole run and by the last call alone.
theorem noted_fork :
    (play (tinyFork ++ [.finalize tinyTip]) (plant tinyAnchor tinyPicker tinySpec).watched).sink.accepted.map
        Snapshot.position = [tinyFirst] ∧
      (play (tinyFork ++ [.finalize tinyTip]) (plant tinyAnchor tinyPicker tinySpec).watched).sink.pruned.map
        Snapshot.position = [⟨1, tinyAnchor.position.root⟩, tinySecond] ∧
      ((Call.finalize tinyTip).after
        (play tinyFork (plant tinyAnchor tinyPicker tinySpec)).watched).sink.pruned.map Snapshot.position =
          [⟨1, tinyAnchor.position.root⟩, tinySecond] := by
  decide +kernel

-- An entry is taken, its sibling and an empty slot are pruned, and its child is rejected and held.
theorem accounted_of_run_tiny :
    CollisionFree (hashed (tinyFork ++ [.finalize tinyTip]) (plant tinyAnchor tinyPicker tinySpec)) ∧
      Accounted tinyAnchor.position
        (inserted (tinyFork ++ [.finalize tinyTip]) (plant tinyAnchor tinyPicker tinySpec))
        (play (tinyFork ++ [.finalize tinyTip]) (plant tinyAnchor tinyPicker tinySpec).watched) ∧
      (play (tinyFork ++ [.finalize tinyTip])
        (plant tinyAnchor tinyPicker tinySpec).watched).sink.accepted.map Snapshot.position = [tinyFirst] ∧
      (play (tinyFork ++ [.finalize tinyTip])
        (plant tinyAnchor tinyPicker tinySpec).watched).sink.pruned.map Snapshot.position =
          [⟨1, tinyAnchor.position.root⟩, tinySecond] ∧
      (Call.finalize tinyTip).outcome (play tinyFork (plant tinyAnchor tinyPicker tinySpec)) =
        .error (.refused (.sink tinyTip (.other "not yet"))) ∧
      ∃ node, node.parent = some tinyFirst ∧ Fate.held.Shown
        (play (tinyFork ++ [.finalize tinyTip]) (plant tinyAnchor tinyPicker tinySpec).watched)
        tinyTip node := by
  obtain ⟨hK, -, -, -, hrejected, hanchor, -⟩ := evaluated_fork
  obtain ⟨haccepted, hpruned, -⟩ := noted_fork
  have hrejected := Outcome.eq_error_of_failure? hrejected
  have hfork := hK
  rw [hashed_append] at hfork
  obtain ⟨-, -, -, hheld⟩ :=
    accounted_of_run Picker.steady tinySpec tinyPicker reached_tiny tinyFork hfork.left
  obtain ⟨node, -, hparent, hshown⟩ := hheld (.finalize tinyTip) tinyTip _ hK hrejected
  obtain ⟨-, -, haccounted, -⟩ :=
    accounted_of_run Picker.steady tinySpec tinyPicker reached_tiny _ hK
  rw [hanchor] at hparent
  exact ⟨hK, haccounted, haccepted, hpruned, hrejected, node, hparent, hshown⟩

end BeaconHistory.Frontier
