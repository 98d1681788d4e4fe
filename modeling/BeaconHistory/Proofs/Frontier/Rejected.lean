import BeaconHistory.Proofs.Frontier.Passing
import BeaconHistory.Proofs.Parallel

/-!
# Frontier.Rejected — what a refused block leaves behind

The slots before a block are passed before the block is tried, so they stay when it is refused.  Main
statement: after any run they are all that stays, they hold the states that advancing gives, they change
no answer about blocks, and every block that is offered later meets the fate that it meets without them.
-/

namespace BeaconHistory

namespace ForkTree

variable {t u : ForkTree} {taken : Block → Prop} {tip : Position} {b : Block} {K : List (List UInt8)}

/-! ## 1. Refusals -/

-- Before the slots are passed, nothing is changed.
theorem insertBlock_eq_error {e : Failure Frontier.Error} (h : insertBlock b t = .error e u) :
    u = t ∨ ∃ p, t.blocks[b.parentRoot]? = some p ∧ p.slot < b.slot ∧ insertOn b p t = .error e u := by
  rw [insertBlock_eq] at h
  split at h
  · cases h
    exact Or.inl rfl
  split at h
  · cases h
  split at h
  · cases h
    exact Or.inl rfl
  next p hparent =>
  split at h
  · cases h
    exact Or.inl rfl
  next hslot => exact Or.inr ⟨p, hparent, UInt64.not_le.1 hslot, h⟩

/-- A block that is refused leaves the tree as it was, or its transition refused it and the slots of its
parent up to it were passed. -/
theorem Sound.refused_insertBlock (ht : t.Sound) (hderived : t.Derived taken) (hK : CollisionFree K)
    (hnew : ∀ x ∈ ((insertBlock b).after t).hashed, x ∈ K) {reason : Frontier.Error}
    (h : insertBlock b t = .error (.refused reason) u) :
    u = t ∨ ∃ p cause, reason = .transition cause ∧ t.blocks[b.parentRoot]? = some p ∧
      t.Passes p b.slot u := by
  rcases insertBlock_eq_error h with hsame | ⟨p, hparent, hslot, hon⟩
  · exact Or.inl hsame
  · have hafter : (insertOn b p).after t = (insertBlock b).after t := by
      rw [Operation.after_eq_of_error hon, Operation.after_eq_of_error h]
    have hhashed := hashedBefore_of_hashed (hafter.symm ▸ hnew) b.slot.toNat
    obtain ⟨node, hnode⟩ := (Lookup.mem_iff_exists _ _).1 (ht.mem_of_blocks hparent)
    -- What putting it on its parent answers is what executing it on the parent answers.
    have hrefused := ht.outcome_insertOn hderived hK hnode hslot hhashed
    rw [Operation.outcome_of_error hon] at hrefused
    obtain ⟨cause, hcause⟩ := refused_of_executed hrefused.symm
    refine Or.inr ⟨p, cause, hcause, hparent, ?_⟩
    rw [insertOn_eq_error hslot hon]
    exact ht.passes_extendTo hK (ht.mem_of_blocks hparent) (UInt64.le_of_lt hslot)
      (hhashed.of_insertOn hslot)

/-! ## 2. Growing beside empty slots -/

/-- An empty slot that is held already is the one that would be built. -/
theorem Sound.emptyAfter_following (ht : t.Sound) (hderived : t.Derived taken) (htip : tip ∈ t.nodes)
    (hslot : tip.slot.toNat + 1 < 2 ^ 64) (hmem : following tip ∈ t.nodes) :
    ∃ entry, emptyAfter tip t = .ok entry ∧ entry.summary.isEmpty = true ∧ entry.position = following tip ∧
      t.nodes[following tip]? = some ⟨entry, some tip⟩ := by
  obtain ⟨before, hbefore⟩ := (Lookup.mem_iff_exists _ _).1 htip
  obtain ⟨⟨entry, parent⟩, hafter⟩ := (Lookup.mem_iff_exists _ _).1 hmem
  obtain ⟨hne, hempty, hparent⟩ := ht.following_node htip hslot hafter
  have hspec := (hderived _ _ hafter hne).1
  have hadvanced := ht.advanced_following hderived hbefore hslot hafter
  rw [parent?, hafter] at hparent
  cases hparent
  refine ⟨entry, emptyAfter_eq_ok_iff.2 ⟨before, entry.state, hbefore, hadvanced, ?_⟩, hempty,
    ht.stored _ _ hafter, hafter⟩
  exact Snapshot.ext_state hspec rfl

/-- Two ways of growing, one of them beside empty slots, that end at one node or fail alike. -/
inductive Abreast : EStateM.Result (Failure Frontier.Error) ForkTree Position →
    EStateM.Result (Failure Frontier.Error) ForkTree Position → Prop where
  | ok {q : Position} {t u : ForkTree} (h : t.Padded u) (hq : q ∈ t.nodes) : Abreast (.ok q t) (.ok q u)
  | error {e : Failure Frontier.Error} {t u : ForkTree} (h : t.Padded u) : Abreast (.error e t) (.error e u)

namespace Padded

theorem extend (h : t.Padded u) (hu : u.Sound) (hderived : u.Derived taken) (hK : CollisionFree K) {n : Nat}
    (htip : tip ∈ t.nodes) (hbound : tip.slot.toNat + n < 2 ^ 64)
    (hhashed : ((ForkTree.extend n tip).after u).HashedBefore K (tip.slot.toNat + n)) :
    Abreast (ForkTree.extend n tip t) (ForkTree.extend n tip u) := by
  -- Induction on the number of slots.  The next one is held beside, and is copied where it is lacking, or
  -- it is added on both sides, or its state cannot be reached on either.
  induction n generalizing tip t u with
  | zero => exact .ok h htip
  | succ n ih =>
    have hslot := toNat_slot_following (p := tip) (by omega)
    have hcount : (following tip).slot.toNat + n = tip.slot.toNat + (n + 1) := by omega
    have hhashedTip := hhashed.of_extend hbound
    have hbuilt := h.emptyAfter_eq htip
    unfold Operation.after EStateM.run at hhashed
    rw [extend_succ] at hhashed
    rw [extend_succ, extend_succ]
    rcases hu.extendOnce_cases hK hhashedTip (by omega) with
      ⟨hmem, heq⟩ | ⟨entry, hsprouts, hentry, heq⟩ | ⟨hnot, e, herror, heq⟩ <;> rw [heq] at hhashed ⊢
    · obtain ⟨entry, hentry, hempty, hposition, hnode⟩ :=
        hu.emptyAfter_following hderived (h.mem htip) (by omega) hmem
      by_cases hold : following tip ∈ t.nodes
      · rw [extendOnce_of_mem hold]
        exact ih h hu hderived hold (by omega) (hcount ▸ hhashed)
      · rw [extendOnce_of_ok hold (hbuilt.symm.trans hentry)]
        exact ih (h.insert_left hempty (hposition.symm ▸ hnode)) hu hderived
          (mem_insert_iff.2 (Or.inl hposition)) (by omega) (hcount ▸ hhashed)
    · rw [extendOnce_of_ok (fun hold => hsprouts.fresh (h.mem hold)) (hbuilt.symm.trans hentry)]
      have hstep : Step taken u (u.insert entry tip) := .sprout hsprouts
      exact ih (h.insert entry tip) (hstep.sound hu) (hstep.derived hu hderived)
        (mem_insert_iff.2 (Or.inl hsprouts.position)) (by omega) (hcount ▸ hhashed)
    · rw [extendOnce_of_error (fun hold => hnot (h.mem hold)) (hbuilt.symm.trans herror)]
      exact .error h

/-! ## 3. Blocks beside empty slots -/

theorem insertOn (h : t.Padded u) (hu : u.Sound) (hderived : u.Derived taken) (hK : CollisionFree K)
    {p : Position} (hp : p ∈ t.nodes) (hslot : p.slot < b.slot)
    (hhashed : ((ForkTree.insertOn b p).after u).HashedBefore K b.slot.toNat) :
    Operation.Same Padded (ForkTree.insertOn b p t) (ForkTree.insertOn b p u) := by
  have hlt := UInt64.lt_iff_toNat_lt.1 hslot
  have hword := b.slot.toNat_lt
  have hreach : p.slot.toNat + (b.slot.toNat - p.slot.toNat) = b.slot.toNat := by omega
  have hpassed : Abreast (extendTo p b.slot t) (extendTo p b.slot u) :=
    h.extend hu hderived hK hp (by omega) (hreach.symm ▸ hhashed.of_insertOn hslot)
  rw [insertOn_eq_extendTo hslot, insertOn_eq_extendTo hslot]
  generalize extendTo p b.slot t = x at hpassed ⊢
  generalize extendTo p b.slot u = y at hpassed ⊢
  cases hpassed with
  | error h => exact .error h
  | @ok pre v w h hpre =>
    dsimp only
    rw [h.applied_eq hpre]
    cases applied b pre v with
    | error e => exact .error h
    | ok post => exact .ok (h.insert post _)

/-- A block is added beside empty slots as it is without them. -/
theorem insertBlock (h : t.Padded u) (hu : u.Sound) (hderived : u.Derived taken) (hK : CollisionFree K)
    (hnew : ∀ x ∈ ((ForkTree.insertBlock b).after u).hashed, x ∈ K) :
    Operation.Same Padded (ForkTree.insertBlock b t) (ForkTree.insertBlock b u) := by
  have heq := insertBlock_eq b u
  rw [h.anchor, h.block?_eq, h.blocks] at heq
  unfold Operation.after EStateM.run at hnew
  rw [heq] at hnew
  rw [heq, insertBlock_eq]
  by_cases hslot : b.slot ≤ t.anchor.slot
  · rw [if_pos hslot, if_pos hslot]
    exact .error h
  · rw [if_neg hslot] at hnew ⊢
    rw [if_neg hslot]
    cases hheld : t.block? b.root with
    | some entry => exact .ok h
    | none =>
      rw [hheld] at hnew
      dsimp only at hnew ⊢
      cases hparent : t.blocks[b.parentRoot]? with
      | none => exact .error h
      | some p =>
        rw [hparent] at hnew
        dsimp only at hnew ⊢
        by_cases hafter : b.slot ≤ p.slot
        · rw [if_pos hafter, if_pos hafter]
          exact .error h
        · rw [if_neg hafter] at hnew ⊢
          rw [if_neg hafter]
          exact h.insertOn hu hderived hK (h.indexed _ p hparent) (UInt64.not_le.1 hafter)
            (hashedBefore_of_hashed hnew _)

end Padded

end ForkTree

namespace Frontier

variable {σ : Type} {f g : Frontier σ} {b : Block} {taken : Block → Prop}

/-! ## 4. What is left -/

/-- The frontier `g` is left when `f` refuses block `b`: it is `f` with some of the empty slots between
`b` and its parent. -/
structure Traceless (f : Frontier σ) (b : Block) (reason : Error) (g : Frontier σ) : Prop where
  -- Neither the sink nor anything else outside of the tree is touched.
  rest : g = { f with tree := g.tree }
  spec : g.tree.spec = f.tree.spec
  anchor : g.tree.anchor = f.tree.anchor
  head : g.tree.head = f.tree.head
  blocks : g.tree.blocks = f.tree.blocks
  nodes : ∀ (p : Position) (node : ForkTree.Node), f.tree.nodes[p]? = some node → g.tree.nodes[p]? = some node
  -- Only a block that comes as far as its transition leaves anything.
  unchanged : (∀ cause, reason ≠ .transition cause) → g = f
  fresh : ∀ (q : Position) (node : ForkTree.Node), g.tree.nodes[q]? = some node → q ∉ f.tree.nodes →
    ∃ p parent, f.tree.blocks[b.parentRoot]? = some p ∧ f.tree.snapshot? p = some parent ∧
      q.root = b.parentRoot ∧ p.slot < q.slot ∧ q.slot ≤ b.slot ∧
      node.entry.summary.isEmpty = true ∧
      parent.state.advanced f.tree.spec q.slot = .ok node.entry.state
  answers : f.AnswersAlike g

theorem Traceless.refl (f : Frontier σ) (b : Block) (reason : Error) : Traceless f b reason f :=
  ⟨rfl, rfl, rfl, rfl, rfl, fun _ _ => id, fun _ => rfl,
    fun _ _ hnode hnew => absurd (Lookup.mem_of_eq_some hnode) hnew, .refl f⟩

theorem traceless_of_passes (ht : f.tree.Sound) (hderived : f.tree.Derived taken)
    (hopen : f.poisoned = false) {p : Position} (hparent : f.tree.blocks[b.parentRoot]? = some p)
    {u : ForkTree} (hpasses : f.tree.Passes p b.slot u) (cause : Transition.Error) :
    Traceless f b (.transition cause) { f with tree := u } := by
  have hgrown := hpasses.grown
  refine ⟨rfl, ForkTree.Steps.spec (hgrown.steps taken), hgrown.anchor, hgrown.head, hgrown.blocks ht,
    fun p node hnode => hgrown.nodes ht hnode, fun h => absurd rfl (h cause), fun q node hnode hnew => ?_,
    answersAlike_of_sprouting ht hgrown hopen hopen⟩
  obtain ⟨start, hstart⟩ := (Lookup.mem_iff_exists _ _).1 (ht.mem_of_blocks hparent)
  obtain ⟨hroot, hlater, hle⟩ := hpasses.new q (Lookup.mem_of_eq_some hnode) hnew
  have hrun : u.nodes[(⟨q.slot, p.root⟩ : Position)]? = some node := by
    rw [← hroot]
    exact hnode
  obtain ⟨hempty, hstate⟩ := hgrown.advanced ht hderived hstart hrun hlater
  exact ⟨p, start.entry, hparent, ForkTree.snapshot?_of_node hstart,
    hroot.trans (ht.root_of_blocks hparent), hlater, hle, hempty, hstate⟩

/-- A block that is not added is refused, and leaves nothing but empty slots. -/
theorem traceless_of_error (hspec : f.tree.spec.validate = .ok ()) (ht : f.tree.Sound)
    (hderived : f.tree.Derived taken) (hK : CollisionFree ((Call.addBlock b).hashed f))
    {e : Failure Error} (hfail : (addBlock b).outcome f = .error e) :
    ∃ reason, e = .refused reason ∧ Traceless f b reason ((addBlock b).after f) := by
  cases hopen : f.poisoned with
  | true =>
    have hclosed : addBlock b f = .error (.refused .poisoned) f := exclusively_of_poisoned _ hopen
    rw [Operation.outcome_of_error hclosed] at hfail
    cases hfail
    rw [Operation.after_eq_of_error hclosed]
    exact ⟨_, rfl, .refl f b _⟩
  | false =>
    obtain ⟨metrics, heq⟩ := addBlock_eq b hopen
    rw [Call.hashed_of_open _ hopen] at hK
    cases hu : ForkTree.insertBlock b f.tree with
    | ok entry u =>
      rw [hu] at heq
      rw [Operation.outcome_of_ok heq] at hfail
      cases hfail
    | error failure u =>
      rw [hu] at heq
      cases failure with
      | broke fault =>
        exact absurd rfl ((ForkTree.insertBlock_fails b _ u hu).not_broke hspec fault)
      | refused reason =>
        rw [Operation.outcome_of_error heq] at hfail
        cases hfail
        rw [Operation.after_eq_of_error heq]
        refine ⟨reason, rfl, ?_⟩
        rcases ht.refused_insertBlock hderived hK.right (fun x hx => hx) hu with
          rfl | ⟨p, cause, rfl, hparent, hpasses⟩
        · exact .refl f b reason
        · exact traceless_of_passes ht hderived hopen hparent hpasses cause

/-! ## 5. Blocks that are offered later -/

/-- `g` is `f`, but for empty slots that `f` may lack. -/
structure Beside (f g : Frontier σ) : Prop where
  tree : f.tree.Padded g.tree
  poisoned : g.poisoned = f.poisoned

theorem Beside.addBlock (h : Beside f g) (hg : g.tree.Sound) (hderived : g.tree.Derived taken)
    (hK : CollisionFree ((Call.addBlock b).hashed g)) :
    Operation.Same Beside (Frontier.addBlock b f) (Frontier.addBlock b g) := by
  cases hopen : g.poisoned with
  | true =>
    have hclosed : f.poisoned = true := h.poisoned.symm.trans hopen
    rw [Frontier.addBlock, exclusively_of_poisoned _ hopen, exclusively_of_poisoned _ hclosed]
    exact .error h
  | false =>
    rw [Call.hashed_of_open _ hopen] at hK
    have hpoisoned : f.poisoned = false := h.poisoned.symm.trans hopen
    have hinsert := h.tree.insertBlock hg hderived hK.right fun x hx => hx
    obtain ⟨_, heq⟩ := addBlock_eq b hopen
    obtain ⟨_, heq'⟩ := addBlock_eq b hpoisoned
    rw [heq, heq']
    generalize ForkTree.insertBlock b f.tree = x at hinsert ⊢
    generalize ForkTree.insertBlock b g.tree = y at hinsert ⊢
    cases hinsert with
    | ok htree => exact .ok ⟨htree, h.poisoned⟩
    | @error e _ _ htree =>
      cases e with
      | refused reason => exact .error ⟨htree, h.poisoned⟩
      | broke fault => exact .error ⟨htree, rfl⟩

/-- The answers to blocks that are offered one after the other. -/
def additions : List Block → Frontier σ → List (Outcome Error Snapshot)
  | [], _ => []
  | b :: later, f => (addBlock b).outcome f :: additions later ((addBlock b).after f)

variable [Sink σ]

/-- Blocks are answered beside empty slots as they are without them. -/
theorem Beside.additions_eq (h : Beside f g) {spec : Spec} (hg : Computed spec g.tree) (later : List Block)
    (hK : CollisionFree (hashed (later.map .addBlock) g)) : additions later f = additions later g := by
  induction later generalizing f g with
  | nil => rfl
  | cons b later ih =>
    have hsame := h.addBlock (b := b) hg.sound hg.derived hK.left
    exact congrArg₂ List.cons hsame.outcome_eq (ih hsame.after (hg.call (.addBlock b) hK.left) hK.right)

/-- After any run of calls, a block that is not added is refused and leaves no trace but empty slots of its
parent, which hold the states that advancing gives; and whichever blocks are offered later, the answers
are those that they get if it was never offered. -/
theorem traceless_of_run {spec : Spec} (hspec : spec.validate = .ok ()) (sink : σ) {anchor : Snapshot}
    {specs : Spec → Prop} (hanchor : anchor.state.Reached specs) (calls : List Call) {b : Block}
    {e : Failure Error}
    (hfail : (addBlock b).outcome (play calls (plant anchor sink spec)) = .error e) (later : List Block)
    (hK : CollisionFree
      (hashed (calls ++ .addBlock b :: later.map .addBlock) (plant anchor sink spec))) :
    (∃ reason, e = .refused reason ∧
      Traceless (play calls (plant anchor sink spec)) b reason
        ((addBlock b).after (play calls (plant anchor sink spec)))) ∧
      additions later ((addBlock b).after (play calls (plant anchor sink spec))) =
        additions later (play calls (plant anchor sink spec)) := by
  rw [hashed_append] at hK
  have hKb : CollisionFree ((Call.addBlock b).hashed (play calls (plant anchor sink spec)) ++
      hashed (later.map .addBlock) ((Call.addBlock b).after (play calls (plant anchor sink spec)))) :=
    hK.right
  have hrun := (computed_plant spec sink hanchor).play calls hK.left
  generalize play calls (plant anchor sink spec) = f at hfail hKb hrun ⊢
  have ht := hrun.sound
  obtain ⟨reason, rfl, hleft⟩ :=
    traceless_of_error (hrun.spec.symm ▸ hspec) ht hrun.derived hKb.left hfail
  have hbeside : Beside f ((addBlock b).after f) :=
    ⟨⟨hleft.spec, hleft.anchor, hleft.blocks, hleft.nodes, fun _ _ hp => ht.mem_of_blocks hp⟩, by
      rw [hleft.rest]⟩
  refine ⟨⟨reason, rfl, hleft⟩, ?_⟩
  exact (hbeside.additions_eq (hrun.call (.addBlock b) hKb.left) later hKb.right).symm

-- A block on top of the anchor that names a state which it does not lead to.
def tinyStray : Block := ⟨{ (tinyChild .zero).toHeader with stateRoot := .zero }⟩

theorem traceless_of_run_tiny :
    ∃ reason, (addBlock tinyStray).outcome (play [] (plant tinyAnchor () tinySpec)) =
        .error (.refused reason) ∧
      Traceless (play [] (plant tinyAnchor () tinySpec)) tinyStray reason
        ((addBlock tinyStray).after (play [] (plant tinyAnchor () tinySpec))) ∧
      additions [tinyChild .zero] ((addBlock tinyStray).after (play [] (plant tinyAnchor () tinySpec))) =
        additions [tinyChild .zero] (play [] (plant tinyAnchor () tinySpec)) := by
  have hrun : tinySpec.validate = .ok () ∧
      CollisionFree (hashed ([] ++ .addBlock tinyStray :: [tinyChild .zero].map .addBlock)
        (plant tinyAnchor () tinySpec)) ∧
      ((addBlock tinyStray).outcome (play [] (plant tinyAnchor () tinySpec))).toBool = false := by
    decide +kernel
  obtain ⟨hspec, hK, hfail⟩ := hrun
  cases houtcome : (addBlock tinyStray).outcome (play [] (plant tinyAnchor () tinySpec)) with
  | ok entry =>
    rw [houtcome] at hfail
    cases hfail
  | error e =>
    obtain ⟨⟨reason, rfl, hleft⟩, hlater⟩ :=
      traceless_of_run hspec () reached_tiny [] houtcome [tinyChild .zero] hK
    exact ⟨reason, rfl, hleft, hlater⟩

end Frontier

end BeaconHistory
