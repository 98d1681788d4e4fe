import BeaconHistory.Proofs.Frontier.Settlement
import BeaconHistory.Proofs.History.Faithful

/-!
# History.Moves — finalization only moves content

A finalization takes the entries on the way to the new anchor from the frontier to the ledger, keeps those
beyond it, and adds empty slots.  So a question that is answered from an entry that is not pruned has the
same answer before and after, although other code gives it.  Main statement: this holds of every lookup,
whatever part of a branch the archive refuses.
-/

namespace BeaconHistory.History

variable {τ : Type} {h g : History τ} {u : ForkTree} {a : Position} {taken : Block → Prop}
  {first : Summary} {e e' : Entry}

/-! ## 1. What a finalization does -/

/-- What a finalization makes of the entries of `h`, once empty slots are added: those on the way to `a` are
recorded, and those beyond `a` stay. -/
structure Moves (h : History τ) (u : ForkTree) (a : Position) (g : History τ) : Prop where
  grown : ForkTree.Sprouting h.frontier.tree u
  mem : a ∈ u.nodes
  recorded : ∀ s, s ∈ g.ledger.records.toList ↔ s ∈ h.ledger.records.toList ∨
    ∃ x, u.Unfinalized x ∧ u.Descends a x.position ∧ x.summary = s
  unfinalized : ∀ x, g.frontier.tree.Unfinalized x ↔
    u.Unfinalized x ∧ u.Descends x.position a ∧ x.position ≠ a
  part : g.frontier.tree.PartOf u
  head : u.Descends u.head a ∧ g.frontier.tree.head = u.head ∨
    ¬ u.Descends u.head a ∧ g.frontier.tree.head = a

theorem Call.moves [Archive τ] (c : Call) (hc : c.toHot.finalizes = true) (hsteady : Archive.Steady τ)
    (hs : h.Sound taken first) (hK : CollisionFree (c.toHot.hashed h.frontier))
    (htaken : ∀ b ∈ c.toHot.accepted h.frontier, taken b) :
    h.Moves (c.toHot.base h.frontier) (c.after h).frontier.tree.anchor (c.after h) := by
  have hopen := (c.sound hsteady hK htaken hs).1.opened
  have hafter : c.after h = ⟨c.toHot.after h.frontier⟩ := congrArg History.mk (c.frontier_after h)
  rw [hafter] at hopen ⊢
  obtain ⟨hgrown, target, path, hsettlement⟩ := c.toHot.settlement hc hs.tree hK hs.opened hopen
  obtain ⟨stop, hpath, -⟩ := hsettlement.branch
  have hu := hgrown.sound hs.tree
  obtain ⟨a, hbranch, -, hsettles⟩ :=
    Frontier.exists_settles hu hpath (Frontier.prefix_accepted path h.frontier.sink)
  obtain ⟨-, hrecords, -⟩ := hs.ledger.handed hsteady (hs.continues hgrown hpath)
  have hsink : (ledger ⟨c.toHot.after h.frontier⟩) = (Frontier.handOver path h.ledger).sink :=
    hsettlement.sink.trans (Ledger.pruneAll_eq _ _)
  show h.Moves _ (c.toHot.after h.frontier).tree.anchor _
  rw [hsettlement.tree, hsettles.anchor]
  refine ⟨hgrown, hsettles.mem hu, fun s => ?_, fun x => ?_, ?_, ?_⟩
  · rw [hsink, hrecords, List.mem_append, List.mem_map]
    refine or_congr_right (exists_congr fun x => ?_)
    rw [show x ∈ (Frontier.handOver path h.ledger).accepted ↔ _ from hbranch.mem_iff hu, and_assoc]
  · show (c.toHot.after h.frontier).tree.Unfinalized x ↔ _
    rw [hsettlement.tree]
    exact hsettles.unfinalized_iff hu
  · show (c.toHot.after h.frontier).tree.PartOf _
    rw [hsettlement.tree]
    exact hsettles.partOf hu
  · show _ ∧ (c.toHot.after h.frontier).tree.head = _ ∨ _ ∧ (c.toHot.after h.frontier).tree.head = _
    rw [hsettlement.tree]
    exact hsettles.head hu

/-! ## 2. What is held before and after -/

/-- A position that is not pruned when the anchor moves to `a`: it is on the way to `a`, or beyond it. -/
def Spared (u : ForkTree) (a p : Position) : Prop := u.Descends a p ∨ u.Descends p a

/-- An entry that is not pruned when the anchor moves to `a`: it is on file already, or its position is
spared. -/
inductive Outlives (u : ForkTree) (a : Position) : Entry → Prop where
  | filed (s : Summary) (spec : Spec) : Outlives u a (.filed s spec)
  | spared {e : Entry} (h : Spared u a e.position) : Outlives u a e

/-- An empty slot that was added after all entries of its block. -/
structure Added (h : History τ) (e : Entry) : Prop where
  fresh : e.position ∉ h.frontier.tree.nodes
  empty : e.summary.isEmpty = true
  later : ∀ old, h.Holds old → old.summary.blockRoot = e.summary.blockRoot →
    old.summary.slot < e.summary.slot

namespace Moves

theorem exists_after (hm : h.Moves u a g) (hs : h.Sound taken first) (he : h.Holds e)
    (hout : Outlives u a e) : ∃ e', g.Holds e' ∧ e'.summary = e.summary := by
  have hfiled {s : Summary} (hrecord : s ∈ g.ledger.records.toList) :
      ∃ e', g.Holds e' ∧ e'.summary = s := ⟨_, .filed hrecord, rfl⟩
  cases he with
  | @filed s hrecord => exact hfiled ((hm.recorded s).2 (Or.inl hrecord))
  | @node x hx =>
    have hxu := hm.grown.unfinalized hs.tree hx
    cases hout with
    | spared hspared =>
      rcases hspared with hbehind | hbeyond
      · exact hfiled ((hm.recorded _).2 (Or.inr ⟨x, hxu, hbehind, rfl⟩))
      by_cases ha : x.position = a
      · -- The new anchor is both on the way and beyond; it is recorded.
        have hbehind : u.Descends a x.position := ha ▸ ForkTree.descends_refl u _
        exact hfiled ((hm.recorded _).2 (Or.inr ⟨x, hxu, hbehind, rfl⟩))
      · exact ⟨.node x, .node ((hm.unfinalized x).2 ⟨hxu, hbeyond, ha⟩), rfl⟩

-- Whatever is held after comes from the records before or from the tree once it has grown.
theorem exists_grown (hm : h.Moves u a g) (he' : g.Holds e') :
    e'.summary ∈ h.ledger.records.toList ∨ ∃ x, u.Unfinalized x ∧ x.summary = e'.summary := by
  cases he' with
  | node hx => exact Or.inr ⟨_, ((hm.unfinalized _).1 hx).1, rfl⟩
  | @filed s hrecord =>
    obtain hold | ⟨x, hx, -, heq⟩ := (hm.recorded s).1 hrecord
    · exact Or.inl hold
    · exact Or.inr ⟨x, hx, heq⟩

theorem exists_before (hm : h.Moves u a g) (hs : h.Sound taken first) (he' : g.Holds e') :
    (∃ e, h.Holds e ∧ e.summary = e'.summary) ∨ e'.position ∈ u.nodes ∧ h.Added e' := by
  obtain hold | ⟨x, hx, heq⟩ := hm.exists_grown he'
  · exact Or.inl ⟨_, .filed hold, rfl⟩
  have hposition : x.position = e'.position := congrArg Summary.position heq
  obtain ⟨node, hnode, -, hentry⟩ := (hm.grown.sound hs.tree).exists_of_unfinalized hx
  by_cases hp : x.position ∈ h.frontier.tree.nodes
  · exact Or.inl ⟨.node x, .node (hm.grown.unfinalized_of_mem hs.tree hx hp), heq⟩
  have hmem : x.position ∈ u.nodes := Lookup.mem_of_eq_some hnode
  refine Or.inr ⟨hposition ▸ hmem, hposition ▸ hp, ?_, fun old hold hroot => ?_⟩
  · rw [← heq, ← hentry]
    exact hm.grown.isEmpty_of_new hs.tree hnode hp
  · rw [← heq] at hroot ⊢
    cases hold with
    | @node y hy =>
      obtain ⟨node', hnode', -, -⟩ := hs.tree.exists_of_unfinalized hy
      have hmem' : y.position ∈ h.frontier.tree.nodes := Lookup.mem_of_eq_some hnode'
      exact hm.grown.slot_lt_of_new hs.tree hmem hp hmem' hroot
    | filed hrecord =>
      refine UInt64.lt_of_le_of_lt (hs.record_slot_le hrecord) ?_
      rw [← hm.grown.anchor]
      exact (hm.grown.sound hs.tree).anchor_slot_lt hx

/-! ## 3. By block -/

theorem earliest (hm : h.Moves u a g) (hs : h.Sound taken first) {root : Root}
    (he : Earliest h.Holds Entry.summary root e) (he' : g.Holds e') (hsummary : e'.summary = e.summary) :
    Earliest g.Holds Entry.summary root e' := by
  refine ⟨he', hsummary ▸ he.root, fun other hother hroot => ?_⟩
  rw [hsummary]
  obtain ⟨old, hold, heq⟩ | ⟨-, hadded⟩ := hm.exists_before hs hother
  · rw [← heq] at hroot ⊢
    exact he.earliest old hold hroot
  · exact UInt64.le_of_lt (hadded.later e he.held (he.root.trans hroot.symm))

/-- The latest entry of a block stays the latest one, or is followed by a slot that was added. -/
theorem latest (hm : h.Moves u a g) (hs : h.Sound taken first) {root : Root} {bound : UInt64}
    (he : Latest h.Holds Entry.summary root bound e) (he' : g.Holds e') (hsummary : e'.summary = e.summary)
    {last : Entry} (hlast : Latest g.Holds Entry.summary root bound last) :
    last.summary.position = e'.summary.position ∨ last.position ∈ u.nodes ∧ h.Added last := by
  refine (hm.exists_before hs hlast.held).imp_left fun ⟨old, hold, heq⟩ => ?_
  have hroot : e'.summary.blockRoot = root := hsummary ▸ he.root
  have hslot : e'.summary.slot ≤ bound := hsummary ▸ he.slot_le
  have hupper := he.latest old hold (heq ▸ hlast.root) (heq ▸ hlast.slot_le)
  have hlower := hlast.latest e' he' hroot hslot
  rw [heq, ← hsummary] at hupper
  exact Summary.position_eq_of (UInt64.le_antisymm hupper hlower) (hlast.root.trans hroot.symm)

/-! ## 4. By slot -/

-- Before the head, what is on the way to the anchor is on the branch of the head.
theorem descends_head (hm : h.Moves u a g) (hs : h.Sound taken first)
    (hhead : Spared u a u.head) {p : Position} (hp : u.Descends a p)
    (hslot : p.slot ≤ u.head.slot) : u.Descends u.head p := by
  have hu := hm.grown.sound hs.tree
  rcases hhead.symm with hbeyond | hbehind
  · exact hbeyond.trans hp
  rcases hbehind.total hp with hdown | hup
  · exact hdown
  · -- The position is no later than the head, so it is the head.
    by_cases hne : p = u.head
    · exact hne ▸ ForkTree.descends_refl u _
    · have hlt := hu.slot_lt_of_descends (hu.mem_of_descends_node hm.mem hp) hup hne
      exact absurd hslot (UInt64.not_le.2 hlt)

theorem eq_of_descends (hm : h.Moves u a g) (hs : h.Sound taken first) {p : Position}
    (hdown : u.Descends p a) (hup : u.Descends a p) : p = a := by
  have hu := hm.grown.sound hs.tree
  by_contra hne
  have hp := hu.mem_of_descends_node hm.mem hup
  exact UInt64.lt_irrefl _ (UInt64.lt_trans (hu.slot_lt_of_descends hp hdown hne)
    (hu.slot_lt_of_descends hm.mem hup (Ne.symm hne)))

/-- An entry up to the head, if the head is not pruned, is canonical before just if it is on the way to
the new anchor or canonical after. -/
theorem canonical_iff (hm : h.Moves u a g) (hs : h.Sound taken first) (hg : g.Sound taken first)
    (hhead : Spared u a u.head) {x : Snapshot} (hslot : x.position.slot ≤ u.head.slot) :
    u.Unfinalized x ∧ u.Descends u.head x.position ↔
      u.Unfinalized x ∧ u.Descends a x.position ∨
        g.frontier.tree.Unfinalized x ∧ g.frontier.tree.Descends g.frontier.tree.head x.position := by
  have hu := hm.grown.sound hs.tree
  constructor
  · rintro ⟨hx, hdown⟩
    by_cases hbehind : u.Descends a x.position
    · exact Or.inl ⟨hx, hbehind⟩
    · -- The entry is beyond the anchor, and so is the head.
      have hbeyond : u.Descends x.position a :=
        hhead.elim (fun hhead => absurd (hhead.trans hdown) hbehind)
          fun hhead => (hdown.total hhead).resolve_right hbehind
      have hsame := hm.head.resolve_right fun hnot => hnot.1 (hdown.trans hbeyond)
      have hne : x.position ≠ a := fun heq => hbehind (heq ▸ ForkTree.descends_refl u _)
      have hxg : g.frontier.tree.Unfinalized x := (hm.unfinalized x).2 ⟨hx, hbeyond, hne⟩
      obtain ⟨node, hnode, -, -⟩ := hg.tree.exists_of_unfinalized hxg
      refine Or.inr ⟨hxg, (hm.part.descends_iff hg.tree hu hg.tree.head_mem).2 ⟨?_, ?_⟩⟩
      · rw [hsame.2]
        exact hdown
      · exact Lookup.mem_of_eq_some hnode
  · rintro (⟨hx, hbehind⟩ | ⟨hxg, hcanonical⟩)
    · exact ⟨hx, hm.descends_head hs hhead hbehind hslot⟩
    · obtain ⟨hx, hbeyond, hne⟩ := (hm.unfinalized x).1 hxg
      have hdown := ((hm.part.descends_iff hg.tree hu hg.tree.head_mem).1 hcanonical).1
      rcases hm.head with ⟨-, hsame⟩ | ⟨-, hanchor⟩
      · rw [hsame] at hdown
        exact ⟨hx, hdown⟩
      · -- A head that is moved to the anchor has nothing canonical beyond the anchor.
        rw [hanchor] at hdown
        exact absurd (hm.eq_of_descends hs hbeyond hdown) hne

variable [Archive τ]

/-- Up to the head, if it is not pruned, each slot has the same answer before and after. -/
theorem exists_bySlot_iff (hm : h.Moves u a g) (hs : h.Sound taken first) (hg : g.Sound taken first)
    (hhead : Spared u a u.head) {slot : UInt64} (hslot : slot ≤ u.head.slot)
    {s : Summary} :
    (∃ e, Chain.bySlot h slot = .ok e ∧ e.summary = s) ↔
      ∃ e, Chain.bySlot g slot = .ok e ∧ e.summary = s := by
  rw [hs.exists_bySlot_iff, hg.exists_bySlot_iff, hm.recorded, or_assoc, ← exists_or]
  refine and_congr_right fun hsSlot => or_congr_right (exists_congr fun x => ?_)
  rw [← and_assoc, ← and_assoc, ← and_assoc, ← or_and_right, hm.grown.canonical_iff hs.tree]
  refine and_congr_left fun heq => hm.canonical_iff hs hg hhead ?_
  show x.summary.slot ≤ u.head.slot
  rw [heq, hsSlot]
  exact hslot

end Moves

/-! ## 5. Answers -/

variable [Archive τ]

/-- The same answer: entries with the same content, or the same failure. -/
inductive SameAnswer (files files' : Files) : Except Query.Error Entry → Except Query.Error Entry → Prop where
  | served {e e' : Entry} (h : e.SameContent files files' e') : SameAnswer files files' (.ok e) (.ok e')
  | missing (failure : Query.Error) : SameAnswer files files' (.error failure) (.error failure)

-- The entries that `c` does not prune.
def Call.Spares (c : Call) (h : History τ) : Entry → Prop :=
  Outlives (c.toHot.base h.frontier) (c.after h).frontier.tree.anchor

-- The same answer before `c` and after it.
def Call.SameAnswer (c : Call) (h : History τ) :
    Except Query.Error Entry → Except Query.Error Entry → Prop :=
  History.SameAnswer (Chain.files h) (Chain.files (c.after h))

/-- The finalization `c` only moves content of `h`: what it does not prune is found as before. -/
structure Call.OnlyMoves (c : Call) (h : History τ) : Prop where
  byStateRoot : ∀ root e, Chain.byStateRoot h root = .ok e → c.Spares h e →
    c.SameAnswer h (.ok e) (Chain.byStateRoot (c.after h) root)
  byBlockRoot : ∀ root e, Chain.byBlockRoot h root = .ok e → c.Spares h e →
    c.SameAnswer h (.ok e) (Chain.byBlockRoot (c.after h) root)
  byPosition : ∀ p e, Chain.byPosition h p = .ok e → c.Spares h e →
    c.SameAnswer h (.ok e) (Chain.byPosition (c.after h) p)
  -- A checkpoint may add slots that are later than all entries of their block.
  closest : ∀ root bound e, Chain.closest h root bound = .ok e → c.Spares h e →
    c.SameAnswer h (.ok e) (Chain.closest (c.after h) root bound) ∨
      ∃ k e', c.toHot = .finalizeCheckpoint k ∧ Chain.closest (c.after h) root bound = .ok e' ∧
        e'.summary.blockRoot = root ∧ e'.summary.slot ≤ bound ∧ h.Added e'
  bySlot : Spared (c.toHot.base h.frontier) (c.after h).frontier.tree.anchor h.frontier.tree.head →
    ∀ slot ≤ h.frontier.tree.head.slot,
      c.SameAnswer h (Chain.bySlot h slot) (Chain.bySlot (c.after h) slot)

theorem SameAnswer.of_ok {files files' : Files} (h : e.SameContent files files' e')
    {answer : Except Query.Error Entry} (hanswer : answer = .ok e') :
    SameAnswer files files' (.ok e) answer :=
  hanswer ▸ .served h

namespace Moves

section

variable (hm : h.Moves u a g) (hs : h.Sound taken first) (hs' : g.Sound taken first)
  {tables : τ → Archive.Tables} (hmemory : Archive.InMemory tables) {spec : Spec} {origin : State}
  {K : List (List UInt8)} (hK : CollisionFree K) (hf : h.Faithful tables taken spec origin K)
  (hf' : g.Faithful tables taken spec origin K)

include hm hs hmemory hK hf hf'

theorem exists_sameContent (he : h.Holds e) (hout : Outlives u a e) :
    ∃ e', g.Holds e' ∧ e.SameContent (Chain.files h) (Chain.files g) e' := by
  obtain ⟨e', he', hsummary⟩ := hm.exists_after hs he hout
  exact ⟨e', he', hf.sameContent hmemory hK hf' he he' hsummary⟩

include hs'

theorem byStateRoot {root : Root} (he : Chain.byStateRoot h root = .ok e) (hout : Outlives u a e) :
    SameAnswer (Chain.files h) (Chain.files g) (.ok e) (Chain.byStateRoot g root) := by
  obtain ⟨hheld, hroot⟩ := (hf.traced.byStateRoot_eq_ok_iff hK hs).1 he
  obtain ⟨e', he', hsame⟩ := hm.exists_sameContent hs hmemory hK hf hf' hheld hout
  refine .of_ok hsame ((hf'.traced.byStateRoot_eq_ok_iff hK hs').2 ⟨he', ?_⟩)
  rw [hsame.summary, hroot]

theorem byPosition {p : Position} (he : Chain.byPosition h p = .ok e) (hout : Outlives u a e) :
    SameAnswer (Chain.files h) (Chain.files g) (.ok e) (Chain.byPosition g p) := by
  obtain ⟨hheld, hposition⟩ := hs.byPosition_eq_ok_iff.1 he
  obtain ⟨e', he', hsame⟩ := hm.exists_sameContent hs hmemory hK hf hf' hheld hout
  refine .of_ok hsame (hs'.byPosition_eq_ok_iff.2 ⟨he', ?_⟩)
  exact (congrArg Summary.position hsame.summary).trans hposition

theorem byBlockRoot (hd : Distinct taken first.blockRoot) {root : Root}
    (he : Chain.byBlockRoot h root = .ok e) (hout : Outlives u a e) :
    SameAnswer (Chain.files h) (Chain.files g) (.ok e) (Chain.byBlockRoot g root) := by
  have hearliest := (hs.byBlockRoot_eq_ok_iff hd).1 he
  obtain ⟨e', he', hsame⟩ := hm.exists_sameContent hs hmemory hK hf hf' hearliest.held hout
  exact .of_ok hsame ((hs'.byBlockRoot_eq_ok_iff hd).2 (hm.earliest hs hearliest he' hsame.summary))

theorem closest (hd : Distinct taken first.blockRoot) {root : Root} {bound : UInt64}
    (he : Chain.closest h root bound = .ok e) (hout : Outlives u a e) :
    SameAnswer (Chain.files h) (Chain.files g) (.ok e) (Chain.closest g root bound) ∨
      ∃ last, Chain.closest g root bound = .ok last ∧ last.summary.blockRoot = root ∧
        last.summary.slot ≤ bound ∧ last.position ∈ u.nodes ∧ h.Added last := by
  have hlatest := (hs.closest_eq_ok_iff hd).1 he
  obtain ⟨e', he', hsame⟩ := hm.exists_sameContent hs hmemory hK hf hf' hlatest.held hout
  have hroot : e'.summary.blockRoot = root := hsame.summary ▸ hlatest.root
  have hbound : e'.summary.slot ≤ bound := hsame.summary ▸ hlatest.slot_le
  obtain ⟨last, hfound⟩ := hs'.exists_closest hd he' hroot hbound
  have hlast := (hs'.closest_eq_ok_iff hd).1 hfound
  rcases hm.latest hs hlatest he' hsame.summary hlast with hposition | hadded
  · rw [hs'.holds_unique hlast.held he' hposition] at hfound
    exact Or.inl (.of_ok hsame hfound)
  · exact Or.inr ⟨last, hfound, hlast.root, hlast.slot_le, hadded⟩

theorem bySlot (hhead : Spared u a u.head) {slot : UInt64} (hslot : slot ≤ u.head.slot) :
    SameAnswer (Chain.files h) (Chain.files g) (Chain.bySlot h slot) (Chain.bySlot g slot) := by
  have hiff {s : Summary} := hm.exists_bySlot_iff hs hs' hhead hslot (s := s)
  cases hbefore : Chain.bySlot h slot with
  | ok e =>
    obtain ⟨e', hafter, hsummary⟩ := hiff.1 ⟨e, hbefore, rfl⟩
    have hheld := (hs.bySlot_eq_ok_iff.1 hbefore).1
    have hheld' := (hs'.bySlot_eq_ok_iff.1 hafter).1
    exact .of_ok (hf.sameContent hmemory hK hf' hheld hheld' hsummary) hafter
  | error failure =>
    -- Nothing is served before, so nothing is served after.
    have hnone (e : Entry) : Chain.bySlot h slot ≠ .ok e := fun h => by cases hbefore.symm.trans h
    have hnone' (e' : Entry) : Chain.bySlot g slot ≠ .ok e' := fun hafter => by
      obtain ⟨e, h, -⟩ := hiff.2 ⟨e', hafter, rfl⟩
      exact hnone e h
    rw [← hbefore, hs.bySlot_eq_error hnone, hs'.bySlot_eq_error hnone']
    exact .missing _

end

end Moves

/-! ## 6. Runs -/

theorem Call.onlyMoves (c : Call) (hc : c.toHot.finalizes = true)
    {tables : τ → Archive.Tables} (hmemory : Archive.InMemory tables) {spec : Spec} {origin : State}
    {K : List (List UInt8)} (hK : CollisionFree K) (hknown : ∀ x ∈ c.toHot.hashed h.frontier, x ∈ K)
    (htaken : ∀ b ∈ c.toHot.accepted h.frontier, taken b) (hd : Distinct taken first.blockRoot)
    (hs : h.Sound taken first) (hf : h.Faithful tables taken spec origin K) : c.OnlyMoves h := by
  have hKcall := hK.mono hknown
  have hm := c.moves hc hmemory.steady hs hKcall htaken
  have hs' := (c.sound hmemory.steady hKcall htaken hs).1
  have hf' := c.faithful hmemory hK hknown htaken hs hf
  refine ⟨fun _ _ => hm.byStateRoot hs hs' hmemory hK hf hf',
    fun _ _ => hm.byBlockRoot hs hs' hmemory hK hf hf' hd,
    fun _ _ => hm.byPosition hs hs' hmemory hK hf hf', fun root bound e he hspared => ?_, ?_⟩
  · refine (hm.closest hs hs' hmemory hK hf hf' hd he hspared).imp_right ?_
    rintro ⟨last, hlast, hroot, hbound, hgrown, hadded⟩
    obtain ⟨k, hk⟩ := c.toHot.eq_of_grown hc hs.opened hgrown hadded.fresh
    exact ⟨k, last, hk, hlast, hroot, hbound, hadded⟩
  · rw [← hm.grown.head]
    exact fun hhead _ => hm.bySlot hs hs' hmemory hK hf hf' hhead

/-- In any run of calls on a history that files its states in memory, and whose archive may refuse any
write, each finalization only moves content, whether it succeeds or the archive refuses part of it: every
entry that a lookup found before, and that is on file already, on the way to the new anchor or beyond it,
has the same summary, the same state and the same duties after.  The closest entry of a block may be
followed by an empty slot that the call added; and the canonical entries up to the head stay the same
unless the head is pruned. -/
theorem onlyMoves_of_run {tables : τ → Archive.Tables} (hmemory : Archive.InMemory tables)
    {anchor : Snapshot} {specs : Spec → Prop} (hanchor : anchor.state.Reached specs) {archive : τ}
    (hempty : tables archive = .empty) (hstart : start anchor anchor.spec archive = .ok h)
    (calls : List Call) (c : Call) (hc : c.toHot.finalizes = true)
    (hK : CollisionFree (hashed (calls ++ [c]) h)) : c.OnlyMoves (play calls h) := by
  have hstrings : ∀ x ∈ anchor.state.hashed, x ∈ hashed (calls ++ [c]) h := by
    cases calls with
    | nil => exact mem_hashed_of_start hstart c []
    | cons c' calls => exact mem_hashed_of_start hstart c' (calls ++ [c])
  have hknown (x : List UInt8)
      (hx : x ∈ hashed calls h ∨ x ∈ c.toHot.hashed (play calls h).frontier) :
      x ∈ hashed (calls ++ [c]) h := by
    rw [hashed_append, hashed_cons, List.mem_append, List.mem_append]
    exact hx.imp_right Or.inl
  have htaken (b : Block)
      (hb : b ∈ accepted calls h ∨ b ∈ c.toHot.accepted (play calls h).frontier) :
      b ∈ accepted (calls ++ [c]) h := by
    rw [accepted_append, accepted_cons, List.mem_append, List.mem_append]
    exact hb.imp_right Or.inl
  -- The invariants hold when the call is made, with the blocks and the strings of the whole run.
  have hd := distinct_of_start hanchor hstart (calls ++ [c]) hK
  have hs := sound_start hanchor hstart (· ∈ accepted (calls ++ [c]) h)
  have hf := faithful_start hmemory hK (· ∈ accepted (calls ++ [c]) h) hempty hstart hstrings
  have hknownCalls (x : List UInt8) (hx : x ∈ hashed calls h) := hknown x (Or.inl hx)
  have htakenCalls (b : Block) (hb : b ∈ accepted calls h) := htaken b (Or.inl hb)
  have hs' := (hs.play hmemory.steady calls (hK.mono hknownCalls) htakenCalls).1
  have hf' := hf.play hmemory hK calls hknownCalls htakenCalls hs
  exact c.onlyMoves hc hmemory hK (fun x hx => hknown x (Or.inr hx)) (fun b hb => htaken b (Or.inr hb))
    hd hs' hf'

-- The block of the small history is found in the frontier, and in the ledger once it is finalized.
theorem onlyMoves_of_run_tiny :
    CollisionFree (hashed tinyRun tinyHistory) ∧
      ∃ e, Chain.byBlockRoot tinyGrown tinyBlock.root = .ok e ∧ tinyCheckpoint.Spares tinyGrown e ∧
        tinyCheckpoint.SameAnswer tinyGrown (.ok e)
          (Chain.byBlockRoot (tinyCheckpoint.after tinyGrown) tinyBlock.root) := by
  obtain ⟨hK, -, -, -, hanchor, hserved, -⟩ := evaluated_tiny
  obtain ⟨e, he, hsummary⟩ := Entry.exists_of_toOption hserved
  have hspared : tinyCheckpoint.Spares tinyGrown e := by
    refine .spared (Or.inl ?_)
    rw [hanchor, show e.position = (Summary.ofBlock tinyBlock).position from
      congrArg Summary.position hsummary]
    exact ForkTree.descends_refl _ _
  have hmoves := onlyMoves_of_run Archive.inMemory_tables Frontier.reached_tiny rfl start_tiny
    [.hot (.addBlock tinyBlock)] tinyCheckpoint rfl hK
  exact ⟨hK, e, he, hspared, hmoves.byBlockRoot tinyBlock.root e he hspared⟩

end BeaconHistory.History
