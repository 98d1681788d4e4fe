import BeaconHistory.Proofs.ForkTree.Padded
import BeaconHistory.Proofs.Frontier.Arrival

/-!
# Frontier.Insertion — adding a block is executing it on its parent

A tree passes the slots between a parent and a block one by one, over empty slots that it may hold
already, and applies the block to the last of them.  A state passes all of them in one call.  Main
statement: the two agree in the entry and in the error, whichever empty slots are held before.
-/

namespace BeaconHistory

/-! ## 1. A block on a state that is advanced before -/

namespace Transition

variable {spec : Spec} {b : Block} {s pre : State}

theorem reach_applyBlock_eq (spec : Spec) (b : Block) (s : State) :
    (applyBlock spec b).reach s = (do (applyAtSlot spec b).reach (← s.atSlot spec b.slot)) := by
  unfold Operation.reach EStateM.run
  rw [applyBlock_eq]
  cases s.atSlot spec b.slot <;> rfl

-- A state that was advanced to the slot of a block takes it as the state before the advance does.
theorem reach_applyBlock_of_atSlot (hle : s.slot ≤ b.slot) (hpre : s.atSlot spec b.slot = .ok pre) :
    (applyBlock spec b).reach pre = (applyBlock spec b).reach s := by
  have hstay : pre.atSlot spec b.slot = .ok pre :=
    if_neg (State.slot_of_atSlot hle hpre ▸ UInt64.lt_irrefl _)
  rw [reach_applyBlock_eq, reach_applyBlock_eq, hpre, hstay]

theorem reach_applyBlock_of_error {e : Failure Error} (h : s.atSlot spec b.slot = .error e) :
    (applyBlock spec b).reach s = .error e := by
  rw [reach_applyBlock_eq, h]
  rfl

end Transition

namespace ForkTree

variable {t u : ForkTree} {taken : Block → Prop} {entry : Snapshot} {tip q : Position} {node : Node}
  {b : Block} {K : List (List UInt8)}

/-! ## 2. The states of a run -/

/-- Wherever the run of a block is entered, its later entries hold the states that advancing gives. -/
theorem Sound.state_run (ht : t.Sound) (hderived : t.Derived taken) {slot : UInt64} {last : Node}
    (hnode : t.nodes[tip]? = some node) (hlast : t.nodes[(⟨slot, tip.root⟩ : Position)]? = some last)
    (hle : tip.slot ≤ slot) : node.entry.state.atSlot t.spec slot = .ok last.entry.state := by
  rw [UInt64.le_iff_toNat_le] at hle
  have hnodeSlot := ht.slot_eq hnode
  -- Induction on the slots passed: the entry one slot before the last is on the run, too.
  generalize hn : slot.toNat - tip.slot.toNat = n
  induction n generalizing slot last with
  | zero =>
    have hslot : slot = tip.slot := UInt64.toNat_inj.1 (by omega)
    subst hslot
    rw [hnode] at hlast
    cases hlast
    exact if_neg (hnodeSlot ▸ UInt64.lt_irrefl _)
  | succ n ih =>
    have hword := slot.toNat_lt
    have hlater : tip.slot.toNat < slot.toNat := by omega
    have hpred := toNat_sub_one hlater
    obtain ⟨origin, horigin, horiginSlot, -⟩ := ht.exists_origin (Lookup.mem_of_eq_some hnode)
    have hmem : (⟨slot - 1, tip.root⟩ : Position) ∈ t.nodes :=
      ht.mem_run (Lookup.mem_of_eq_some hlast) horigin (UInt64.le_iff_toNat_le.2 (by omega))
        (UInt64.le_iff_toNat_le.2 (by dsimp only; omega))
    obtain ⟨before, hbefore⟩ := (Lookup.mem_iff_exists _ _).1 hmem
    have hnext : following ⟨slot - 1, tip.root⟩ = ⟨slot, tip.root⟩ := following_eq (by dsimp only; omega)
    have hstep := ht.advanced_following hderived hbefore (by dsimp only; omega) (hnext.symm ▸ hlast)
    have hreach := ih hbefore (by omega) (by omega)
    rw [hnext] at hstep
    have hfrom : node.entry.state.slot ≤ slot - 1 := by
      rw [UInt64.le_iff_toNat_le, hnodeSlot]
      omega
    have hto : slot - 1 ≤ slot := UInt64.le_iff_toNat_le.2 (by omega)
    rw [State.atSlot_trans hfrom hto, hreach]
    exact State.atSlot_eq_ok_iff.2 (Or.inl hstep)

/-! ## 3. Growing up to a slot -/

-- What is built on a node is told by its state.
theorem emptyAfter_of_node (hnode : t.nodes[tip]? = some node) :
    emptyAfter tip t = (do
      let state ← (node.entry.state.advanced t.spec (following tip).slot).mapReason .transition
      return .ofState t.spec state) := by
  unfold emptyAfter snapshot
  rw [snapshot?_of_node hnode]
  rfl

-- An empty slot that cannot be built is one that the state before it cannot reach.
theorem error_of_emptyAfter {e : Failure Frontier.Error} (hnode : t.nodes[tip]? = some node)
    (hslot : node.entry.state.slot < (following tip).slot) (h : emptyAfter tip t = .error e) :
    ∃ e', node.entry.state.atSlot t.spec (following tip).slot = .error e' ∧ e = e'.map .transition := by
  rw [emptyAfter_of_node hnode] at h
  rw [State.atSlot, if_pos hslot]
  cases hadvanced : node.entry.state.advanced t.spec (following tip).slot with
  | ok state =>
    rw [hadvanced] at h
    cases h
  | error e' =>
    rw [hadvanced] at h
    cases h
    exact ⟨e', rfl, rfl⟩

/-- The entry that executing block `b` on the state of `parent` leads to. -/
def executed (spec : Spec) (b : Block) (parent : Snapshot) : Outcome Frontier.Error Snapshot := do
  let state ← ((Transition.applyBlock spec b).reach parent.state).mapReason .transition
  return .ofState spec state

theorem applied_of_node (hnode : t.nodes[tip]? = some node) :
    applied b tip t = executed t.spec b node.entry := by
  unfold applied snapshot
  rw [snapshot?_of_node hnode]
  rfl

/-- Growing that succeeds ends at the state that advancing gives. -/
theorem Sound.state_extendTo (ht : t.Sound) (hderived : t.Derived taken) (hK : CollisionFree K)
    (hnode : t.nodes[tip]? = some node) {slot : UInt64} (hle : tip.slot ≤ slot)
    (h : extendTo tip slot t = .ok q u) (hhashed : u.HashedBefore K slot.toNat) :
    q = ⟨slot, tip.root⟩ ∧ Sprouting t u ∧ ∃ last, u.nodes[q]? = some last ∧
      node.entry.state.atSlot t.spec slot = .ok last.entry.state := by
  have hq := position_of_extendTo hle h
  have hgrowth := ht.sprouting_extendTo hK (Lookup.mem_of_eq_some hnode) (UInt64.le_iff_toNat_le.1 hle)
    (Nat.le_refl _) (by rw [Operation.after_eq_of_ok h]; exact hhashed)
  rw [Operation.after_eq_of_ok h] at hgrowth
  obtain ⟨hgrown, -, hend⟩ := hgrowth
  have hsteps := hgrown.steps taken
  obtain ⟨last, hlast⟩ := (Lookup.mem_iff_exists _ _).1 (hend q u h)
  refine ⟨hq, hgrown, last, hlast, ?_⟩
  rw [← Steps.spec hsteps]
  rw [hq] at hlast
  exact (hgrown.sound ht).state_run (hsteps.derived ht hderived) (hgrown.nodes ht hnode) hlast hle

/-- Growing that fails does so where advancing fails, and for the same reason. -/
theorem Sound.error_extend (ht : t.Sound) (hderived : t.Derived taken) (hK : CollisionFree K)
    (hnode : t.nodes[tip]? = some node) {n : Nat} {slot : UInt64}
    (hslot : slot.toNat = tip.slot.toNat + n) {e : Failure Frontier.Error}
    (h : extend n tip t = .error e u) (hhashed : u.HashedBefore K slot.toNat) :
    ∃ e', node.entry.state.atSlot t.spec slot = .error e' ∧ e = e'.map .transition := by
  have hnodeSlot := ht.slot_eq hnode
  -- Induction on the number of slots: either the last one fails, or one before it did.
  induction n generalizing slot with
  | zero => cases h
  | succ n ih =>
    have hlater : tip.slot.toNat < slot.toNat := by omega
    have hpred := toNat_sub_one hlater
    have hfrom : node.entry.state.slot ≤ slot - 1 := by
      rw [UInt64.le_iff_toNat_le, hnodeSlot]
      omega
    have hto : slot - 1 ≤ slot := UInt64.le_iff_toNat_le.2 (by omega)
    have hcount : (slot - 1).toNat - tip.slot.toNat = n := by omega
    rw [State.atSlot_trans hfrom hto]
    rw [extend_succ_last] at h
    cases hfirst : extend n tip t with
    | error e' w =>
      rw [hfirst] at h
      cases h
      have hbefore : u.HashedBefore K (slot - 1).toNat := fun p node hp hlt => hhashed p node hp (by omega)
      obtain ⟨e', herror, rfl⟩ := ih (by omega) hfirst hbefore
      exact ⟨e', by rw [herror]; rfl, rfl⟩
    | ok q w =>
      rw [hfirst] at h
      obtain ⟨hu, hnew⟩ := extendOnce_eq_error h
      rw [← hu] at hfirst hnew
      have hextend : extendTo tip (slot - 1) t = .ok q u := by
        unfold extendTo
        rw [hcount]
        exact hfirst
      have hbefore : u.HashedBefore K (slot - 1).toNat := fun p node hp hlt => hhashed p node hp (by omega)
      obtain ⟨hq, hgrown, last, hlast, hreach⟩ :=
        ht.state_extendTo hderived hK hnode (UInt64.le_iff_toNat_le.2 (by omega)) hextend hbefore
      have hnext : (following q).slot = slot := by
        rw [hq]
        exact congrArg Position.slot (following_eq (p := ⟨slot - 1, tip.root⟩) (s := slot)
          (by dsimp only; omega))
      have hlastSlot : last.entry.state.slot < (following q).slot := by
        rw [hnext, State.slot_of_atSlot hfrom hreach, UInt64.lt_iff_toNat_lt]
        omega
      obtain ⟨e', herror, rfl⟩ := error_of_emptyAfter hlast hlastSlot hnew
      rw [hnext, Steps.spec (hgrown.steps taken)] at herror
      refine ⟨e', ?_, rfl⟩
      rw [hreach]
      exact herror

theorem Sound.error_extendTo (ht : t.Sound) (hderived : t.Derived taken) (hK : CollisionFree K)
    (hnode : t.nodes[tip]? = some node) {slot : UInt64} (hle : tip.slot ≤ slot)
    {e : Failure Frontier.Error} (h : extendTo tip slot t = .error e u)
    (hhashed : u.HashedBefore K slot.toNat) :
    ∃ e', node.entry.state.atSlot t.spec slot = .error e' ∧ e = e'.map .transition := by
  have hle := UInt64.le_iff_toNat_le.1 hle
  exact ht.error_extend hderived hK hnode (n := slot.toNat - tip.slot.toNat) (by omega) h hhashed

/-! ## 4. Blocks -/

theorem executed_of_error {spec : Spec} {parent : Snapshot} {e : Failure Transition.Error}
    (h : parent.state.atSlot spec b.slot = .error e) :
    executed spec b parent = .error (e.map .transition) := by
  unfold executed
  rw [Transition.reach_applyBlock_of_error h]
  rfl

/-- A block that is put on a parent is executed on it. -/
theorem Sound.outcome_insertOn (ht : t.Sound) (hderived : t.Derived taken) (hK : CollisionFree K)
    {parent : Position} (hnode : t.nodes[parent]? = some node) (hslot : parent.slot < b.slot)
    (hhashed : ((insertOn b parent).after t).HashedBefore K b.slot.toNat) :
    (insertOn b parent).outcome t = executed t.spec b node.entry := by
  have hle := UInt64.le_of_lt hslot
  have hhashed := hhashed.of_insertOn hslot
  unfold Operation.outcome EStateM.run
  rw [insertOn_eq_extendTo hslot]
  cases hu : extendTo parent b.slot t with
  | error e u =>
    rw [Operation.after_eq_of_error hu] at hhashed
    obtain ⟨e', herror, rfl⟩ := ht.error_extendTo hderived hK hnode hle hu hhashed
    exact (executed_of_error herror).symm
  | ok pre u =>
    rw [Operation.after_eq_of_ok hu] at hhashed
    obtain ⟨-, hgrown, last, hpre, hreach⟩ := ht.state_extendTo hderived hK hnode hle hu hhashed
    have happlied : applied b pre u = executed t.spec b node.entry := by
      rw [applied_of_node hpre, Steps.spec (hgrown.steps taken), executed, executed,
        Transition.reach_applyBlock_of_atSlot (ht.slot_eq hnode ▸ hle) hreach]
    dsimp only
    rw [← happlied]
    cases applied b pre u <;> rfl

/-- What adding block `b`, which is not held, comes to: the parent is looked up, and `b` executed on it. -/
def added (b : Block) (t : ForkTree) : Outcome Frontier.Error Snapshot :=
  match t.blocks[b.parentRoot]? with
  | none => .refuse (.unknownParent b.slot b.parentRoot)
  | some p =>
    if b.slot ≤ p.slot then .refuse (.slotNotAfterParent b.slot p.slot)
    else do executed t.spec b (← Outcome.ofExcept (t.snapshot p))

theorem added_of_parent {p : Position} (hparent : t.blocks[b.parentRoot]? = some p)
    (hslot : p.slot < b.slot) {parent : Snapshot} (hsnapshot : t.snapshot? p = some parent) :
    added b t = executed t.spec b parent := by
  unfold added snapshot
  rw [hparent]
  dsimp only
  rw [hsnapshot]
  exact if_neg (UInt64.not_le.2 hslot)

theorem refused_of_executed {spec : Spec} {parent : Snapshot} {reason : Frontier.Error}
    (h : executed spec b parent = .error (.refused reason)) : ∃ e, reason = .transition e := by
  unfold executed at h
  cases hpost : (Transition.applyBlock spec b).reach parent.state with
  | ok post =>
    rw [hpost] at h
    cases h
  | error e =>
    rw [hpost] at h
    cases e with
    | refused e =>
      cases h
      exact ⟨e, rfl⟩
    | broke fault => cases h

-- The three fates of a block that is not held.
theorem Sound.added_cases (ht : t.Sound) (b : Block) :
    (t.blocks[b.parentRoot]? = none ∧ added b t = .refuse (.unknownParent b.slot b.parentRoot)) ∨
      (∃ p, t.blocks[b.parentRoot]? = some p ∧ b.slot ≤ p.slot ∧
        added b t = .refuse (.slotNotAfterParent b.slot p.slot)) ∨
      ∃ p parent, t.blocks[b.parentRoot]? = some p ∧ p.slot < b.slot ∧ t.snapshot? p = some parent ∧
        added b t = executed t.spec b parent := by
  cases hparent : t.blocks[b.parentRoot]? with
  | none => exact Or.inl ⟨rfl, by rw [added, hparent]⟩
  | some p =>
    by_cases hslot : b.slot ≤ p.slot
    · refine Or.inr (Or.inl ⟨p, rfl, hslot, ?_⟩)
      rw [added, hparent]
      exact if_pos hslot
    · obtain ⟨node, hnode⟩ := (Lookup.mem_iff_exists _ _).1 (ht.mem_of_blocks hparent)
      have hsnapshot := snapshot?_of_node hnode
      have hlt := UInt64.not_le.1 hslot
      exact Or.inr (Or.inr ⟨p, _, rfl, hlt, hsnapshot, added_of_parent hparent hlt hsnapshot⟩)

theorem Sound.added_eq_unknown_iff (ht : t.Sound) {slot : UInt64} {root : Root} :
    added b t = .error (.refused (.unknownParent slot root)) ↔
      t.blocks[b.parentRoot]? = none ∧ slot = b.slot ∧ root = b.parentRoot := by
  rcases ht.added_cases b with ⟨hparent, heq⟩ | ⟨p, hparent, -, heq⟩ | ⟨p, parent, hparent, -, -, heq⟩
  · simp [heq, hparent, Outcome.refuse, eq_comm]
  · simp [heq, hparent, Outcome.refuse]
  · rw [heq, hparent]
    refine ⟨fun h => ?_, fun h => (by cases h.1)⟩
    obtain ⟨e, he⟩ := refused_of_executed h
    cases he

theorem Sound.added_eq_early_iff (ht : t.Sound) {slot parentSlot : UInt64} :
    added b t = .error (.refused (.slotNotAfterParent slot parentSlot)) ↔
      ∃ p, t.blocks[b.parentRoot]? = some p ∧ b.slot ≤ p.slot ∧ slot = b.slot ∧ parentSlot = p.slot := by
  rcases ht.added_cases b with ⟨hparent, heq⟩ | ⟨p, hparent, hle, heq⟩ | ⟨p, parent, hparent, hlt, -, heq⟩
  · simp [heq, hparent, Outcome.refuse]
  · simp [heq, hparent, hle, Outcome.refuse, eq_comm]
  · rw [heq, hparent]
    constructor
    · intro h
      obtain ⟨e, he⟩ := refused_of_executed h
      cases he
    · rintro ⟨q, hq, hle, -⟩
      cases hq
      exact absurd hle (UInt64.not_le.2 hlt)

theorem Sound.outcome_insertBlock (ht : t.Sound) (hderived : t.Derived taken) (hK : CollisionFree K)
    (hnew : ∀ x ∈ ((insertBlock b).after t).hashed, x ∈ K) (hslot : t.anchor.slot < b.slot)
    (hfresh : t.block? b.root = none) : (insertBlock b).outcome t = added b t := by
  have heq := insertBlock_eq b t
  rw [if_neg (UInt64.not_le.2 hslot), hfresh] at heq
  dsimp only at heq
  cases hparent : t.blocks[b.parentRoot]? with
  | none =>
    rw [hparent] at heq
    rw [Operation.outcome_of_error heq, added, hparent]
    rfl
  | some p =>
    rw [hparent] at heq
    dsimp only at heq
    by_cases hafter : b.slot ≤ p.slot
    · rw [if_pos hafter] at heq
      rw [Operation.outcome_of_error heq, added, hparent]
      exact (if_pos hafter).symm
    · rw [if_neg hafter] at heq
      obtain ⟨node, hnode⟩ := (Lookup.mem_iff_exists _ _).1 (ht.mem_of_blocks hparent)
      rw [Operation.after_eq, heq] at hnew
      have hsnapshot := snapshot?_of_node hnode
      rw [added_of_parent hparent (UInt64.not_le.1 hafter) hsnapshot,
        ← ht.outcome_insertOn hderived hK hnode (UInt64.not_le.1 hafter) (hashedBefore_of_hashed hnew _)]
      unfold Operation.outcome EStateM.run
      rw [heq]

-- Empty slots that are held in advance change neither the blocks that are known nor their entries.
theorem Padded.added_eq (h : t.Padded u) (b : Block) : added b u = added b t := by
  unfold added
  rw [h.blocks, h.spec]
  cases hparent : t.blocks[b.parentRoot]? with
  | none => rfl
  | some p =>
    unfold snapshot
    dsimp only
    rw [h.snapshot?_eq (h.indexed _ p hparent)]

end ForkTree

namespace Frontier

/-! ## 5. Frontiers in use -/

variable {σ : Type} {f : Frontier σ} {b : Block} {entry : Snapshot} {taken : Block → Prop}

/-- Block `b` was added as `entry`. -/
structure Inserted (f : Frontier σ) (b : Block) (entry : Snapshot) : Prop where
  given : (addBlock b).outcome f = .ok entry
  isEmpty : entry.summary.isEmpty = false
  position : entry.position = ⟨b.slot, b.root⟩
  held : ((addBlock b).after f).tree.unfinalized? ⟨b.slot, b.root⟩ = some entry
  indexed : ((addBlock b).after f).tree.blocks[b.root]? = some ⟨b.slot, b.root⟩

/-- Adding block `b` is executing it on the entry of its parent. -/
structure Executes (spec : Spec) (f : Frontier σ) (b : Block) : Prop where
  -- A block that is held is given back, and only measurements change.
  held : ∀ e, f.tree.Unfinalized e → e.summary.blockRoot = b.root → e.summary.isEmpty = false →
    ∃ metrics, addBlock b f = .ok e { f with metrics := metrics }
  unknown : f.tree.block? b.root = none → ∀ slot root,
    (addBlock b).outcome f = .error (.refused (.unknownParent slot root)) ↔
      f.tree.blocks[b.parentRoot]? = none ∧ slot = b.slot ∧ root = b.parentRoot
  early : f.tree.block? b.root = none → ∀ slot parentSlot,
    (addBlock b).outcome f = .error (.refused (.slotNotAfterParent slot parentSlot)) ↔
      ∃ p, f.tree.blocks[b.parentRoot]? = some p ∧ b.slot ≤ p.slot ∧ slot = b.slot ∧ parentSlot = p.slot
  -- Any other block meets the fate that its transition meets on the state of the parent.
  executed : f.tree.block? b.root = none → ∀ p, f.tree.blocks[b.parentRoot]? = some p → p.slot < b.slot →
    ∃ parent, f.tree.snapshot? p = some parent ∧
      match (Transition.applyBlock spec b).reach parent.state with
      | .ok post => Inserted f b (.ofState spec post)
      | .error (.refused reason) => (addBlock b).outcome f = .error (.refused (.transition reason))
      | .error (.broke _) => False

theorem outcome_addBlock (b : Block) (hopen : f.poisoned = false) :
    (addBlock b).outcome f = (ForkTree.insertBlock b).outcome f.tree := by
  obtain ⟨metrics, heq⟩ := addBlock_eq b hopen
  unfold Operation.outcome EStateM.run
  rw [heq]
  cases ForkTree.insertBlock b f.tree with
  | ok entry u => rfl
  | error e u => cases e <;> rfl

theorem addBlock_of_held (hopen : f.poisoned = false) (hslot : f.tree.anchor.slot < b.slot)
    (h : f.tree.block? b.root = some entry) :
    ∃ metrics, addBlock b f = .ok entry { f with metrics := metrics } := by
  obtain ⟨metrics, heq⟩ := addBlock_eq b hopen
  rw [ForkTree.insertBlock_eq, if_neg (UInt64.not_le.2 hslot), h] at heq
  exact ⟨metrics, heq⟩

-- The strings that adding a block hashes cover the tree before, the block, and the tree after.
theorem mem_hashed_addBlock (hopen : f.poisoned = false) (hslot : f.tree.anchor.slot < b.slot) :
    (∀ x ∈ f.tree.hashed, x ∈ (Call.addBlock b).hashed f) ∧ b.preimage ∈ (Call.addBlock b).hashed f ∧
      ∀ x ∈ ((ForkTree.insertBlock b).after f.tree).hashed, x ∈ (Call.addBlock b).hashed f := by
  have hoffered : (Call.addBlock b).offered f.tree = [b] := if_neg (UInt64.not_le.2 hslot)
  rw [Call.hashed_of_open _ hopen, hoffered]
  refine ⟨fun x hx => ?_, ?_, fun x hx => List.mem_append_right _ hx⟩
  · exact List.mem_append_left _ (List.mem_append_right _ hx)
  · exact List.mem_append_left _ (List.mem_append_left _ (List.mem_singleton_self _))

theorem outcome_addBlock_of_new (ht : f.tree.Sound) (hderived : f.tree.Derived taken)
    (hopen : f.poisoned = false) (hK : CollisionFree ((Call.addBlock b).hashed f))
    (hslot : f.tree.anchor.slot < b.slot) (hnew : f.tree.block? b.root = none) :
    (addBlock b).outcome f = f.tree.added b := by
  rw [outcome_addBlock b hopen]
  exact ht.outcome_insertBlock hderived hK (mem_hashed_addBlock hopen hslot).2.2 hslot hnew

theorem inserted_of_ok [Sink σ] (ht : f.tree.Sound) (hopen : f.poisoned = false)
    (hK : CollisionFree ((Call.addBlock b).hashed f)) (hslot : f.tree.anchor.slot < b.slot)
    (hnew : f.tree.block? b.root = none) (h : (addBlock b).outcome f = .ok entry) : Inserted f b entry := by
  obtain ⟨g, hg⟩ := Operation.exists_of_outcome_ok h
  obtain ⟨-, hinsert⟩ := addBlock_eq_ok hg
  rcases (adds_addBlock b ht hopen hK).2 entry g.tree hinsert with ⟨-, hheld⟩ | hadds
  · rw [hnew] at hheld
    cases hheld
  obtain ⟨hgathers, hsnapshot⟩ :
      f.tree.Gathers (· = b) [b] g.tree ∧ g.tree.snapshot? ⟨b.slot, b.root⟩ = some entry :=
    hadds.gathers ht rfl
  obtain ⟨tip, v, -, -, hgrafts, -⟩ := hadds
  refine ⟨h, ?_, hgrafts.position, ?_, ?_⟩
  · rw [hgrafts.summary]
    rfl
  · rw [Operation.after_eq_of_ok hg, ForkTree.unfinalized?, hsnapshot]
    exact if_pos (ForkTree.Steps.anchor hgathers.steps ▸ hslot)
  · rw [Operation.after_eq_of_ok hg]
    exact (hgathers.blocks_iff _ _).2 (Or.inr ⟨b, List.mem_singleton_self b, rfl, rfl⟩)

theorem executes_of_open [Sink σ] (hspec : f.tree.spec.validate = .ok ()) (ht : f.tree.Sound)
    (hderived : f.tree.Derived taken) (hopen : f.poisoned = false)
    (hK : CollisionFree ((Call.addBlock b).hashed f)) (hslot : f.tree.anchor.slot < b.slot) :
    Executes f.tree.spec f b := by
  have hadded := outcome_addBlock_of_new ht hderived hopen hK hslot
  refine ⟨fun e he hroot hblock => ?_, fun hnew slot root => ?_, fun hnew slot parentSlot => ?_,
    fun hnew p hparent hafter => ?_⟩
  · exact addBlock_of_held hopen hslot (ht.block?_eq_some_iff_unfinalized.2 ⟨he, hroot, hblock⟩)
  · rw [hadded hnew]
    exact ht.added_eq_unknown_iff
  · rw [hadded hnew]
    exact ht.added_eq_early_iff
  · obtain ⟨node, hnode⟩ := (Lookup.mem_iff_exists _ _).1 (ht.mem_of_blocks hparent)
    have hsnapshot := ForkTree.snapshot?_of_node hnode
    have hfate := (hadded hnew).trans (ForkTree.added_of_parent hparent hafter hsnapshot)
    refine ⟨node.entry, hsnapshot, ?_⟩
    have hsteady := State.applyBlock_steady hspec b node.entry.state
    unfold ForkTree.executed at hfate
    cases hpost : (Transition.applyBlock f.tree.spec b).reach node.entry.state with
    | ok post =>
      rw [hpost] at hfate
      exact inserted_of_ok ht hopen hK hslot hnew hfate
    | error e =>
      cases e with
      | refused reason =>
        rw [hpost] at hfate
        exact hfate
      | broke fault => exact hsteady fault hpost

-- Empty slots that are held in advance make no difference.
theorem outcome_addBlock_of_sprouting (ht : f.tree.Sound) (hderived : f.tree.Derived taken)
    (hopen : f.poisoned = false) (hK : CollisionFree ((Call.addBlock b).hashed f))
    (hslot : f.tree.anchor.slot < b.slot) {t : ForkTree} (hgrown : f.tree.Sprouting t)
    (hKt : CollisionFree ((Call.addBlock b).hashed { f with tree := t })) :
    (addBlock b).outcome { f with tree := t } = (addBlock b).outcome f := by
  have htslot : t.anchor.slot < b.slot := hgrown.anchor ▸ hslot
  have hpadded := hgrown.padded ht
  have hheld := hpadded.block?_eq b.root
  cases hnew : f.tree.block? b.root with
  | some entry =>
    obtain ⟨_, heq⟩ := addBlock_of_held hopen hslot hnew
    obtain ⟨_, heq'⟩ := addBlock_of_held (f := { f with tree := t }) hopen htslot (hheld.trans hnew)
    rw [Operation.outcome_of_ok heq, Operation.outcome_of_ok heq']
  | none =>
    have htderived := (hgrown.steps taken).derived ht hderived
    rw [outcome_addBlock_of_new (f := { f with tree := t }) (hgrown.sound ht) htderived hopen hKt htslot
      (hheld.trans hnew), outcome_addBlock_of_new ht hderived hopen hK hslot hnew]
    exact hpadded.added_eq b

variable [Sink σ]

theorem spec_play (calls : List Call) (ht : f.tree.Sound) (hK : CollisionFree (hashed calls f)) :
    (play calls f).tree.spec = f.tree.spec := by
  induction calls generalizing f with
  | nil => rfl
  | cons c calls ih =>
    have hmove := c.move ht hK.left
    exact (ih (hmove.sound ht) hK.right).trans hmove.spec

/-- With constants that can divide, only a sink that breaks off closes a frontier. -/
theorem open_play (hsteady : Sink.Steady σ) (calls : List Call) (hspec : f.tree.spec.validate = .ok ())
    (ht : f.tree.Sound) (hopen : f.poisoned = false) (hK : CollisionFree (hashed calls f)) :
    (play calls f).poisoned = false := by
  induction calls generalizing f with
  | nil => exact hopen
  | cons c calls ih =>
    have hmove := c.move ht hK.left
    exact ih (hmove.spec ▸ hspec) (hmove.sound ht) (hmove.opened hsteady hspec hopen) hK.right

/-- Adding a block after the anchor to a frontier in use is executing it on the entry of its parent,
whichever empty slots of the parent are held before. -/
theorem insertion_of_run {spec : Spec} (hspec : spec.validate = .ok ()) (sink : σ) {anchor : Snapshot}
    {specs : Spec → Prop} (hanchor : anchor.state.Reached specs) (calls : List Call) {b : Block}
    (hslot : (play calls (plant anchor sink spec)).tree.anchor.slot < b.slot)
    (hK : CollisionFree (hashed (calls ++ [.addBlock b]) (plant anchor sink spec))) :
    (Sink.Steady σ → (play calls (plant anchor sink spec)).poisoned = false) ∧
      ((play calls (plant anchor sink spec)).poisoned = false →
        Executes spec (play calls (plant anchor sink spec)) b ∧
          ∀ t, (play calls (plant anchor sink spec)).tree.Sprouting t →
            CollisionFree ((Call.addBlock b).hashed
              { play calls (plant anchor sink spec) with tree := t }) →
            (addBlock b).outcome { play calls (plant anchor sink spec) with tree := t } =
              (addBlock b).outcome (play calls (plant anchor sink spec))) := by
  have hplant := ForkTree.sound_plant spec hanchor.aged
  rw [hashed_append] at hK
  have hKb : CollisionFree ((Call.addBlock b).hashed (play calls (plant anchor sink spec))) :=
    hK.right.left
  have ht := sound_play calls (f := plant anchor sink spec) hplant hK.left
  have hderived := derived_play calls (f := plant anchor sink spec) hplant hK.left (fun _ => id)
    (ForkTree.derived_plant _ spec anchor)
  have hsame : (play calls (plant anchor sink spec)).tree.spec = spec := spec_play calls hplant hK.left
  refine ⟨fun hsteady => open_play hsteady calls hspec hplant rfl hK.left, fun hopen => ⟨?_, ?_⟩⟩
  · have hexecutes := executes_of_open (hsame.symm ▸ hspec) ht hderived hopen hKb hslot
    rw [hsame] at hexecutes
    exact hexecutes
  · intro t hgrown hKt
    exact outcome_addBlock_of_sprouting ht hderived hopen hKb hslot hgrown hKt

theorem insertion_of_run_tiny :
    Executes tinySpec (play [] (plant tinyAnchor () tinySpec)) (tinyChild .zero) ∧
      ((addBlock (tinyChild .zero)).outcome (play [] (plant tinyAnchor () tinySpec))).toBool = true := by
  obtain ⟨hK, -, -, -, hadded⟩ := evaluated_siblings
  have hsplit : [] ++ tinySiblings.map Call.addBlock =
      ([] ++ [.addBlock (tinyChild .zero)]) ++ [.addBlock (tinyChild tinyAnchor.position.root)] := by
    simp [tinySiblings]
  rw [hsplit, hashed_append] at hK
  have hspec : tinySpec.validate = .ok () := by decide
  have hslot : (play [] (plant tinyAnchor () tinySpec)).tree.anchor.slot < (tinyChild .zero).slot := by
    decide
  obtain ⟨hopen, hexecutes⟩ := insertion_of_run hspec () reached_tiny [] hslot hK.left
  exact ⟨(hexecutes rfl).1, hadded⟩

end Frontier

end BeaconHistory
