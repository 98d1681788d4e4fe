import BeaconHistory.Proofs.Frontier.Passing
import BeaconHistory.Proofs.Frontier.Pieces
import BeaconHistory.Proofs.Frontier.Replayed

/-!
# Frontier.Materialized — finalizing a checkpoint

The first slot of an epoch may be empty, and no node yet when its checkpoint is finalized.  Main
statement: after any run, finalizing a checkpoint is finalizing its entry on the tree that has all the
empty slots up to it, whichever of them were there before, and it fails only for want of the block.
-/

namespace BeaconHistory

namespace ForkTree

variable {t u : ForkTree} {taken : Block → Prop} {p tip : Position} {slot : UInt64} {entry : Snapshot}
  {node : Node} {K : List (List UInt8)}

/-! ## 1. Rings that fit -/

/-- Every state has rings of the length that the constants name. -/
def Fitting (t : ForkTree) : Prop :=
  ∀ (p : Position) (node : Node), t.nodes[p]? = some node → node.entry.state.ringsFit t.spec = true

theorem fitting_plant {spec : Spec} {anchor : Snapshot} (hfit : anchor.state.ringsFit spec = true) :
    (plant spec anchor).Fitting := by
  intro p node hnode
  obtain ⟨-, rfl⟩ := nodes_plant_iff.1 hnode
  exact hfit

theorem Fitting.insert (h : t.Fitting) (hentry : entry.state.ringsFit t.spec = true) :
    (t.insert entry tip).Fitting := by
  intro p node hnode
  rcases nodes_insert_iff.1 hnode with ⟨-, rfl⟩ | ⟨-, hnode⟩
  · exact hentry
  · exact h p node hnode

theorem Step.fitting (h : Step taken t u) (hfits : t.Fitting) : u.Fitting := by
  cases h with
  | sprout h =>
    obtain ⟨_, -, hstate⟩ := h.state
    exact hfits.insert (State.ringsFit_of_advanced hstate)
  | graft _ h =>
    obtain ⟨pre, hpre, hstate⟩ := h.state
    exact hfits.insert (State.ringsFit_of_applyBlock (hfits _ pre hpre) hstate)
  | point h => exact hfits

theorem Steps.fitting (h : Steps taken t u) (hfits : t.Fitting) : u.Fitting := by
  induction h with
  | refl => exact hfits
  | tail _ hstep ih => exact hstep.fitting ih

/-! ## 2. All slots up to one -/

/-- `u` is `t` with all empty slots up to `slot` after the entry `start` at `p`, whichever of them `t`
had. -/
structure Materialized (t : ForkTree) (p : Position) (start : Snapshot) (slot : UInt64) (u : ForkTree) :
    Prop extends t.Passes p slot u where
  mem : ∀ s, p.slot ≤ s → s ≤ slot → (⟨s, p.root⟩ : Position) ∈ u.nodes
  state : ∀ (s : UInt64) (node : Node), u.nodes[(⟨s, p.root⟩ : Position)]? = some node → p.slot < s →
    s ≤ slot → node.entry.summary.isEmpty = true ∧
      start.state.advanced t.spec s = .ok node.entry.state

theorem Sound.materialized_extendTo (ht : t.Sound) (hderived : t.Derived taken) (hK : CollisionFree K)
    (hspec : t.spec.validate = .ok ()) (hfits : t.Fitting) (hindex : t.blocks[p.root]? = some p)
    (hnode : t.nodes[p]? = some node) (hle : p.slot ≤ slot)
    (hhashed : ((extendTo p slot).after t).HashedBefore K slot.toNat) :
    ∃ u, extendTo p slot t = .ok ⟨slot, p.root⟩ u ∧ t.Materialized p node.entry slot u := by
  have hpasses := ht.passes_extendTo hK (Lookup.mem_of_eq_some hnode) hle hhashed
  cases hu : extendTo p slot t with
  | error e u =>
    -- Rings that fit let every slot be reached.
    rw [Operation.after_eq_of_error hu] at hhashed
    obtain ⟨_, herror, -⟩ := ht.error_extendTo hderived hK hnode hle hu hhashed
    obtain ⟨_, hreach⟩ := State.exists_atSlot hspec (ht.slot_eq hnode ▸ hle) (hfits p node hnode)
    rw [hreach] at herror
    cases herror
  | ok q u =>
    rw [Operation.after_eq_of_ok hu] at hhashed hpasses
    obtain ⟨rfl, hgrown, last, hlast, -⟩ := ht.state_extendTo hderived hK hnode hle hu hhashed
    have horigin : u.blocks[p.root]? = some p := by rw [hgrown.blocks ht, hindex]
    refine ⟨u, rfl, hpasses, fun s hfrom hto => ?_, fun s after hafter hlater _ => ?_⟩
    · exact (hgrown.sound ht).mem_run (p := ⟨slot, p.root⟩) (Lookup.mem_of_eq_some hlast) horigin hfrom hto
    · exact hgrown.advanced ht hderived hnode hafter hlater

-- Nothing that is asked for precedes the block that it carries.
theorem Sound.not_mem_of_lt (ht : t.Sound) (hindex : t.blocks[p.root]? = some p) (hlt : slot < p.slot) :
    (⟨slot, p.root⟩ : Position) ∉ t.nodes := fun hmem =>
  UInt64.not_lt.2 (ht.origin_slot_le hmem hindex) hlt

end ForkTree

namespace Frontier

variable {σ : Type} [Sink σ] {f g : Frontier σ} {u : ForkTree} {taken : Block → Prop}

theorem Move.fitting (h : Move taken f u g) (ht : f.tree.Sound) (hfits : f.tree.Fitting) :
    g.tree.Fitting := by
  intro p node hnode
  rw [h.spec]
  refine h.forall_entry (fun e => e.state.ringsFit f.tree.spec = true) ht (fun t hsteps => ?_) hnode
  rw [← hsteps.spec]
  exact hsteps.fitting hfits

theorem fitting_play (calls : List Call) (ht : f.tree.Sound) (hK : CollisionFree (hashed calls f))
    (hfits : f.tree.Fitting) : (play calls f).tree.Fitting := by
  induction calls generalizing f with
  | nil => exact hfits
  | cons c calls ih =>
    have hmove := c.move ht hK.left
    exact ih (hmove.sound ht) hK.right (hmove.fitting ht hfits)

/-! ## 3. Checkpoints -/

theorem finalizeCheckpoint_eq_of_lt {c : Checkpoint} (hopen : f.poisoned = false)
    (hslot : f.tree.anchor.slot < (checkpointPosition f.tree.spec c).slot) :
    finalizeCheckpoint c f =
      match ForkTree.reachSlot c.root (checkpointPosition f.tree.spec c).slot f.tree with
      | .error e u => closing (.error e { f with tree := u })
      | .ok _ u => closing (finalizePath (checkpointPosition f.tree.spec c) { f with tree := u }) := by
  have heq := finalizeAfter_eq (ForkTree.reachSlot c.root (checkpointPosition f.tree.spec c).slot)
    (checkpointPosition f.tree.spec c) hopen
  rw [isFinalized_eq_false_iff.2 hslot] at heq
  exact heq

/-- A finalization of a later node that succeeds leaves it as the anchor, with the entry that it had. -/
theorem anchored_of_ok (ht : f.tree.Sound) {target : Position} (hslot : f.tree.anchor.slot < target.slot)
    (hopen : f.poisoned = false) {n : Nat} (h : finalize target f = .ok n g) :
    g.tree.anchor = target ∧ g.tree.snapshot? target = f.tree.snapshot? target := by
  have hfinalized := finalized_finalize target ht hopen
  rw [h] at hfinalized
  cases hfinalized with
  | before hbefore => exact absurd (UInt64.lt_trans hslot hbefore) (UInt64.lt_irrefl _)
  | anchor heq => exact absurd (heq ▸ hslot) (UInt64.lt_irrefl _)
  | whole _ hpath _ htree =>
    obtain ⟨node, hnode⟩ := (Lookup.mem_iff_exists _ _).1 (hpath.mem ht)
    have hkept := (ForkTree.nodes_reanchor_iff ht (Lookup.mem_of_eq_some hnode)).2
      ⟨node, hnode, ForkTree.descends_refl _ target, rfl⟩
    refine ⟨by rw [htree, ForkTree.anchor_reanchor], ?_⟩
    rw [htree, ForkTree.snapshot?_of_node hkept, ForkTree.snapshot?_of_node hnode,
      ForkTree.Node.entry_asKept]

/-- What finalizing checkpoint `c`, which is after the anchor, comes to with a sink that takes everything:
the slots up to its entry are made, and the entry is finalized. -/
structure Materializes (spec : Spec) (f : Frontier σ) (c : Checkpoint) : Prop where
  held : ∀ p, f.tree.blocks[c.root]? = some p → p.slot ≤ (checkpointPosition spec c).slot →
    ∃ start u e, f.tree.snapshot? p = some start ∧
      f.tree.Materialized p start (checkpointPosition spec c).slot u ∧
      finalizeCheckpoint c f = finalize (checkpointPosition spec c) { f with tree := u } ∧
      (finalizeCheckpoint c).outcome f =
        .ok ((checkpointPosition spec c).slot.toNat - f.tree.anchor.slot.toNat) ∧
      ((finalizeCheckpoint c).after f).tree.anchor = checkpointPosition spec c ∧
      ((finalizeCheckpoint c).after f).tree.snapshot? (checkpointPosition spec c) = some e ∧
      -- The state of the block is kept if the block is at the first slot itself.
      start.state.atSlot spec (checkpointPosition spec c).slot = .ok e.state
  unknown : f.tree.blocks[c.root]? = none →
    finalizeCheckpoint c f = .error (.refused (.unknownBlock c.root)) f
  late : ∀ p, f.tree.blocks[c.root]? = some p → (checkpointPosition spec c).slot < p.slot →
    finalizeCheckpoint c f = .error (.refused (.unknownEntry (checkpointPosition spec c))) f

section

variable {c : Checkpoint} (ht : f.tree.Sound) (hopen : f.poisoned = false)
  (hslot : f.tree.anchor.slot < (checkpointPosition f.tree.spec c).slot)

include hopen hslot

theorem finalizeCheckpoint_of_unknown (hindex : f.tree.blocks[c.root]? = none) :
    finalizeCheckpoint c f = .error (.refused (.unknownBlock c.root)) f := by
  rw [finalizeCheckpoint_eq_of_lt hopen hslot, ForkTree.reachSlot_eq, hindex]
  rfl

include ht

-- No slot is passed towards a slot before the block, and none is found there.
theorem finalizeCheckpoint_of_late {p : Position} (hindex : f.tree.blocks[c.root]? = some p)
    (hlate : (checkpointPosition f.tree.spec c).slot < p.slot) :
    finalizeCheckpoint c f =
      .error (.refused (.unknownEntry (checkpointPosition f.tree.spec c))) f := by
  have hroot := ht.root_of_blocks hindex
  have hstay : ForkTree.extendTo p (checkpointPosition f.tree.spec c).slot f.tree = .ok p f.tree := by
    have hlt := UInt64.lt_iff_toNat_lt.1 hlate
    unfold ForkTree.extendTo
    rw [Nat.sub_eq_zero_of_le (Nat.le_of_lt hlt)]
    rfl
  have hmissing : checkpointPosition f.tree.spec c ∉ f.tree.nodes := by
    have hnot := ht.not_mem_of_lt (hroot.symm ▸ hindex) hlate
    rw [hroot] at hnot
    exact hnot
  rw [finalizeCheckpoint_eq_of_lt hopen hslot, ForkTree.reachSlot_eq, hindex]
  dsimp only
  rw [hstay]
  dsimp only
  rw [finalizePath_of_no_path (ForkTree.pathTo_eq_error hmissing)]
  rfl

end

/-- How finalizing a checkpoint on an open frontier with a sound tree ends. -/
theorem materializes_of_open (haccepting : Sink.Accepting σ) {c : Checkpoint}
    (hspec : f.tree.spec.validate = .ok ()) (ht : f.tree.Sound) (hderived : f.tree.Derived taken)
    (hfits : f.tree.Fitting) (hopen : f.poisoned = false)
    (hslot : f.tree.anchor.slot < (checkpointPosition f.tree.spec c).slot)
    (hK : CollisionFree ((Call.finalizeCheckpoint c).hashed f)) : Materializes f.tree.spec f c := by
  refine ⟨fun p hindex hle => ?_, fun hindex => finalizeCheckpoint_of_unknown hopen hslot hindex,
    fun p hindex hlate => finalizeCheckpoint_of_late ht hopen hslot hindex hlate⟩
  obtain ⟨node, hnode⟩ := (Lookup.mem_iff_exists _ _).1 (ht.mem_of_blocks hindex)
  have hroot := ht.root_of_blocks hindex
  have hgrown : (Call.finalizeCheckpoint c).grown f.tree =
      (ForkTree.extendTo p (checkpointPosition f.tree.spec c).slot).after f.tree := by
    unfold Call.grown
    dsimp only
    rw [if_neg (UInt64.not_le.2 hslot), ForkTree.after_reachSlot, hindex]
  rw [Call.hashed_of_open _ hopen, hgrown] at hK
  obtain ⟨u, hextend, hmade⟩ := ht.materialized_extendTo hderived hK.right hspec hfits
    (hroot.symm ▸ hindex) hnode hle (ForkTree.hashedBefore_of_hashed (fun x hx => hx) _)
  have husound := hmade.grown.sound ht
  have hposition : (⟨(checkpointPosition f.tree.spec c).slot, p.root⟩ : Position) =
      checkpointPosition f.tree.spec c := congrArg (Position.mk _) hroot
  have htarget : checkpointPosition f.tree.spec c ∈ u.nodes :=
    hposition ▸ hmade.mem _ hle (UInt64.le_refl _)
  have huslot : u.anchor.slot < (checkpointPosition f.tree.spec c).slot := hmade.grown.anchor ▸ hslot
  have heq : finalizeCheckpoint c f =
      finalize (checkpointPosition f.tree.spec c) { f with tree := u } := by
    rw [finalizeCheckpoint_eq_of_lt hopen hslot, ForkTree.reachSlot_eq, hindex]
    dsimp only
    rw [hextend, finalize_eq_of_lt (f := { f with tree := u }) hopen huslot]
  have houtcome := finalize_of_accepting (f := { f with tree := u }) haccepting husound hopen htarget
  obtain ⟨g, hg⟩ := Operation.exists_of_outcome_ok houtcome
  obtain ⟨hanchor, hentry⟩ := anchored_of_ok (f := { f with tree := u }) husound huslot hopen hg
  obtain ⟨last, hlast⟩ := (Lookup.mem_iff_exists _ _).1 htarget
  have hreach := husound.state_run ((hmade.grown.steps taken).derived ht hderived)
    (hmade.grown.nodes ht hnode) (hposition.symm ▸ hlast) hle
  rw [ForkTree.Steps.spec (hmade.grown.steps taken)] at hreach
  refine ⟨node.entry, u, last.entry, ForkTree.snapshot?_of_node hnode, hmade, heq, ?_, ?_, ?_, hreach⟩
  · rw [Operation.outcome_of_ok (heq.trans hg)]
    show Except.ok (_ - u.anchor.slot.toNat) = _
    rw [hmade.grown.anchor]
  · rw [Operation.after_eq_of_ok (heq.trans hg)]
    exact hanchor
  · rw [Operation.after_eq_of_ok (heq.trans hg), hentry]
    exact ForkTree.snapshot?_of_node hlast

/-- After any run of calls that starts from an anchor whose rings fit the constants, finalizing a
checkpoint after the anchor, with a sink that takes everything, is finalizing its entry on the tree that
has the empty slots up to it; it is refused, and nothing is touched, if its block is not held or is later
than the first slot of its epoch. -/
theorem materialized_of_run {spec : Spec} (hspec : spec.validate = .ok ()) (sink : σ) {anchor : Snapshot}
    {specs : Spec → Prop} (hanchor : anchor.state.Reached specs)
    (hfit : anchor.state.ringsFit spec = true) (calls : List Call) (c : Checkpoint)
    (hslot : (play calls (plant anchor sink spec)).tree.anchor.slot < (checkpointPosition spec c).slot)
    (hK : CollisionFree (hashed (calls ++ [.finalizeCheckpoint c]) (plant anchor sink spec))) :
    (Sink.Steady σ → (play calls (plant anchor sink spec)).poisoned = false) ∧
      ((play calls (plant anchor sink spec)).poisoned = false →
        ∀ {τ : Type} [Sink τ], Sink.Accepting τ → ∀ taker : τ,
          Materializes spec ((play calls (plant anchor sink spec)).watchedBy taker) c) := by
  have hplanted := computed_plant spec sink hanchor
  rw [hashed_append] at hK
  have hKc : CollisionFree ((Call.finalizeCheckpoint c).hashed (play calls (plant anchor sink spec))) :=
    hK.right.left
  have hrun := hplanted.play calls hK.left
  have hfits := fitting_play calls hplanted.sound hK.left (ForkTree.fitting_plant hfit)
  refine ⟨fun hsteady => open_play hsteady calls hspec hplanted.sound rfl hK.left, fun hopen => ?_⟩
  intro τ _ haccepting taker
  generalize play calls (plant anchor sink spec) = f at hslot hKc hrun hfits hopen ⊢
  have hsame := hrun.spec
  subst hsame
  exact materializes_of_open (f := f.watchedBy taker) (Watched.accepting haccepting) hspec hrun.sound
    hrun.derived hfits hopen hslot hKc

def tinyTarget : Position := ⟨1, tinyAnchor.position.root⟩

-- Finalizing the empty slot after the anchor, which it adds.
theorem collisionFree_target :
    CollisionFree (hashed [.finalizeCheckpoint ⟨1, tinyAnchor.position.root⟩]
      (plant tinyAnchor () tinySpec)) := by
  decide +kernel

theorem materialized_of_run_tiny :
    ∃ start u, ((plant tinyAnchor () tinySpec).tree.Materialized tinyAnchor.position start 1 u) ∧
      finalizeCheckpoint ⟨1, tinyAnchor.position.root⟩ ((plant tinyAnchor () tinySpec).watchedBy ()) =
        finalize tinyTarget { (plant tinyAnchor () tinySpec).watchedBy () with tree := u } := by
  have haccepting : Sink.Accepting Unit := fun _ sink => ⟨sink, rfl⟩
  have hslot : (play [] (plant tinyAnchor () tinySpec)).tree.anchor.slot <
      (checkpointPosition tinySpec ⟨1, tinyAnchor.position.root⟩).slot := by decide
  obtain ⟨hopen, hmaterializes⟩ := materialized_of_run (by decide : tinySpec.validate = .ok ()) () reached_tiny
    (by decide) [] ⟨1, tinyAnchor.position.root⟩ hslot collisionFree_target
  have hindex : (plant tinyAnchor () tinySpec).tree.blocks[tinyAnchor.position.root]? =
      some tinyAnchor.position := by simp [plant, ForkTree.plant]
  obtain ⟨start, u, -, -, hmade, heq, -⟩ :=
    (hmaterializes rfl haccepting ()).held tinyAnchor.position hindex (by decide)
  exact ⟨start, u, hmade, heq⟩

end Frontier

end BeaconHistory
