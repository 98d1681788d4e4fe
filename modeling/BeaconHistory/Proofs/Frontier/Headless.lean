import BeaconHistory.Proofs.ForkTree.Headless
import BeaconHistory.Proofs.Frontier.Changes
import BeaconHistory.Proofs.Questions
import BeaconHistory.Proofs.Frontier.Watched

/-!
# Frontier.Headless — calls that differ in the heads they set

Two frontiers over sinks that behave alike are set beside each other.  Main statement: a call that does
not set the head is answered alike by frontiers that are equal but for their heads, and leaves such
frontiers; one that sets it changes nothing else.
-/

namespace BeaconHistory

namespace Frontier

open Operation (Parallel)

variable {σ ρ α : Type} {S : σ → ρ → Prop} {f : Frontier σ} {g : Frontier ρ}

/-! ## 1. Sinks -/

/-- Sinks that are related by `S` take and reject the same entries, and stay related. -/
structure Sink.Alike [Sink σ] [Sink ρ] (S : σ → ρ → Prop) : Prop where
  offer : ∀ entry : Snapshot, Parallel S (Sink.offer entry) (Sink.offer entry)
  prune : ∀ (entry : Snapshot) (s : σ) (r : ρ), S s r → S (Sink.prune entry s) (Sink.prune entry r)

section

variable [Sink σ] [Sink ρ]

theorem Sink.Alike.handOver (hS : Sink.Alike S) (path : List Snapshot) {s : σ} {r : ρ} (h : S s r) :
    (handOver path s).accepted = (Frontier.handOver path r).accepted ∧
      (Frontier.handOver path s).stopped = (Frontier.handOver path r).stopped ∧
      S (Frontier.handOver path s).sink (Frontier.handOver path r).sink := by
  induction path generalizing s r with
  | nil => exact ⟨rfl, rfl, h⟩
  | cons entry path ih =>
    unfold Frontier.handOver
    have hoffer := hS.offer entry s r h
    generalize Sink.offer entry s = x at hoffer ⊢
    generalize Sink.offer entry r = y at hoffer ⊢
    cases hoffer with
    | ok h =>
      obtain ⟨haccepted, hstopped, hsink⟩ := ih h
      exact ⟨congrArg (entry :: ·) haccepted, hstopped, hsink⟩
    | error h => exact ⟨rfl, rfl, h⟩

theorem Sink.Alike.pruneAll (hS : Sink.Alike S) (entries : List Snapshot) {s : σ} {r : ρ} (h : S s r) :
    S (pruneAll entries s) (Frontier.pruneAll entries r) := by
  induction entries generalizing s r with
  | nil => exact h
  | cons entry entries ih => exact ih (hS.prune entry s r h)

/-- Related sinks under watch, with the same notes. -/
structure Watched.Alike (S : σ → ρ → Prop) (w : Watched σ) (v : Watched ρ) : Prop where
  sink : S w.sink v.sink
  accepted : w.accepted = v.accepted
  pruned : w.pruned = v.pruned

theorem Sink.Alike.watched (hS : Sink.Alike S) : Sink.Alike (Watched.Alike S) := by
  refine ⟨fun entry w v h => ?_, fun entry w v h => ?_⟩
  · have hoffer := hS.offer entry w.sink v.sink h.sink
    show Operation.Same _ (Watched.offer entry w) (Watched.offer entry v)
    unfold Watched.offer
    generalize Sink.offer entry w.sink = x at hoffer ⊢
    generalize Sink.offer entry v.sink = y at hoffer ⊢
    cases hoffer with
    | ok hsink => exact .ok ⟨hsink, congrArg (· ++ [entry]) h.accepted, h.pruned⟩
    | error hsink => exact .error ⟨hsink, h.accepted, h.pruned⟩
  · exact ⟨hS.prune entry _ _ h.sink, h.accepted, congrArg (· ++ [entry]) h.pruned⟩

end

/-! ## 2. Changes -/

/-- The frontiers are equal but for their heads and what was measured, over sinks that are related. -/
structure Alike (S : σ → ρ → Prop) (f : Frontier σ) (g : Frontier ρ) : Prop where
  tree : f.tree.Alike g.tree
  sink : S f.sink g.sink
  poisoned : f.poisoned = g.poisoned

theorem parallel_exclusively {change : Change σ α} {change' : Change ρ α}
    (h : Parallel (Alike S) change change') :
    Parallel (Alike S) (exclusively change) (exclusively change') := by
  intro f g hfg
  cases hf : f.poisoned with
  | true =>
    rw [exclusively_of_poisoned _ hf, exclusively_of_poisoned _ (hfg.poisoned ▸ hf)]
    exact .error hfg
  | false =>
    rw [exclusively_of_open _ hf, exclusively_of_open _ (hfg.poisoned ▸ hf)]
    have hchange := h f g hfg
    generalize change f = x at hchange ⊢
    generalize change' g = y at hchange ⊢
    cases hchange with
    | ok h => exact .ok h
    | @error e f' g' h =>
      cases e with
      | refused e => exact .error h
      | broke fault => exact .error ⟨h.tree, h.sink, rfl⟩

theorem parallel_onTree {growth : ForkTree.Growth α} (h : Parallel ForkTree.Alike growth growth) :
    Parallel (Alike S) (onTree growth) (onTree growth) := by
  intro f g hfg
  have hgrowth := h f.tree g.tree hfg.tree
  unfold onTree
  generalize growth f.tree = x at hgrowth ⊢
  generalize growth g.tree = y at hgrowth ⊢
  cases hgrowth with
  | ok h => exact .ok ⟨h, hfg.sink, hfg.poisoned⟩
  | error h => exact .error ⟨h, hfg.sink, hfg.poisoned⟩

theorem parallel_measure (m m' : Metrics) :
    Parallel (Alike S) (measure m) (measure m') :=
  Operation.parallel_modify fun _ _ h => ⟨h.tree, h.sink, h.poisoned⟩

theorem parallel_addBlock (b : Block) : Parallel (Alike S) (addBlock b) (addBlock b) := by
  refine parallel_exclusively ((parallel_onTree (ForkTree.parallel_insertBlock b)).bind fun entry => ?_)
  refine Operation.Parallel.get_bind fun f g h => ?_
  exact (parallel_measure _ _).bind (fun _ => Operation.parallel_pure entry) f g h

section

variable [Sink σ] [Sink ρ]

omit [Sink σ] [Sink ρ] in
theorem alike_settled {t u : ForkTree} (h : t.Alike u) (taken : List Snapshot) :
    (settled taken t).Alike (settled taken u) ∧ outcast taken t = outcast taken u := by
  unfold settled outcast
  cases taken.getLast? with
  | none => exact ⟨h, rfl⟩
  | some last => exact h.reanchor last.position

theorem parallel_finalizePath (hS : Sink.Alike S) (target : Position) :
    Parallel (Alike S) (finalizePath target) (finalizePath target) := by
  intro f g h
  have hsame := h.tree.pathTo target
  cases hpath : f.tree.pathTo target with
  | error e =>
    rw [finalizePath_of_no_path hpath, finalizePath_of_no_path (hsame ▸ hpath)]
    exact .error h
  | ok path =>
    obtain ⟨haccepted, hstopped, hsink⟩ := hS.handOver path h.sink
    have hpath' : g.tree.pathTo target = .ok path := hsame ▸ hpath
    cases hf : (handOver path f.sink).stopped with
    | none =>
      obtain ⟨_, heq⟩ := finalizePath_of_taken hpath hf
      obtain ⟨_, heq'⟩ := finalizePath_of_taken hpath' (hstopped ▸ hf)
      obtain ⟨htree, hpruned⟩ := h.tree.reanchor target
      rw [heq, heq', hpruned]
      exact .ok ⟨htree, hS.pruneAll _ hsink, h.poisoned⟩
    | some stop =>
      obtain ⟨entry, failure⟩ := stop
      cases failure with
      | broke fault =>
        rw [finalizePath_of_broke hpath hf, finalizePath_of_broke hpath' (hstopped ▸ hf)]
        exact .error ⟨h.tree, hsink, h.poisoned⟩
      | refused rejection =>
        obtain ⟨_, heq⟩ := finalizePath_of_refused hpath hf
        obtain ⟨_, heq'⟩ := finalizePath_of_refused hpath' (hstopped ▸ hf)
        obtain ⟨htree, hpruned⟩ := alike_settled h.tree (handOver path f.sink).accepted
        rw [heq, heq', hpruned, haccepted] at *
        exact .error ⟨htree, hS.pruneAll _ hsink, h.poisoned⟩

theorem parallel_finalizeAfter (hS : Sink.Alike S) (growth : ForkTree.Growth Unit)
    (hgrowth : Parallel ForkTree.Alike growth growth) (target : Position) :
    Parallel (Alike S) (finalizeAfter growth target) (finalizeAfter growth target) := by
  refine parallel_exclusively ((Operation.parallel_ofOutcome fun f g h => ?_).bind fun finalized => ?_)
  · obtain ⟨p, hp⟩ := h.tree
    rw [hp]
    rfl
  · cases finalized with
    | true => exact Operation.parallel_pure 0
    | false => exact (parallel_onTree hgrowth).bind fun _ => parallel_finalizePath hS target

theorem parallel_finalizeCheckpoint (hS : Sink.Alike S) (c : Checkpoint) :
    Parallel (Alike S) (finalizeCheckpoint c) (finalizeCheckpoint c) := by
  intro f g h
  obtain ⟨p, hp⟩ := h.tree
  rw [finalizeCheckpoint_eq, finalizeCheckpoint_eq, show g.tree.spec = f.tree.spec by rw [hp]]
  exact parallel_finalizeAfter hS _ (ForkTree.parallel_reachSlot _ _) _ f g h

end

/-! ## 3. Heads -/

theorem Alike.symm (h : Alike S f g) : Alike (fun r s => S s r) g f :=
  ⟨h.tree.symm, h.sink, h.poisoned.symm⟩

-- Setting the head, or failing to, changes nothing else.
theorem Alike.setHead_left (h : Alike S f g) (root : Root) : Alike S ((setHead root).after f) g := by
  cases hf : f.poisoned with
  | true =>
    rw [show (setHead root).after f = f from Operation.after_eq_of_error (exclusively_of_poisoned _ hf)]
    exact h
  | false =>
    rw [Operation.after_eq, setHead_eq root hf]
    cases f.tree.blocks[root]? with
    | none => exact h
    | some p => exact ⟨(f.tree.alike_withHead p).symm.trans h.tree, h.sink, h.poisoned⟩

theorem Alike.setHead_right (h : Alike S f g) (root : Root) : Alike S f ((setHead root).after g) :=
  (h.symm.setHead_left root).symm

-- Whether a call sets the head.
def Call.setsHead : Call → Bool
  | setHead _ => true
  | _ => false

theorem Call.alike_after [Sink σ] [Sink ρ] (hS : Sink.Alike S) {c : Call} (hc : c.setsHead = false)
    (h : Alike S f g) : Alike S (c.after f) (c.after g) := by
  cases c with
  | addBlock b => exact (parallel_addBlock b).after h
  | setHead root => cases hc
  | finalize target =>
    exact (parallel_finalizeAfter hS (pure ()) (Operation.parallel_pure ()) target).after h
  | finalizeCheckpoint c => exact (parallel_finalizeCheckpoint hS c).after h

/-! ## 4. Answers -/

theorem Alike.served_bind (h : Alike S f g) (query : ForkTree → Except Query.Error α)
    (hsame : query f.tree = query g.tree) : f.served.bind query = g.served.bind query := by
  unfold served
  rw [h.poisoned]
  cases g.poisoned with
  | true => rfl
  | false => exact hsame

theorem Alike.opened_bind (h : Alike S f g) (query : ForkTree → Except Error α)
    (hsame : query f.tree = query g.tree) : f.opened.bind query = g.opened.bind query := by
  unfold opened
  rw [h.poisoned]
  cases g.poisoned with
  | true => rfl
  | false => exact hsame

theorem Alike.anchor (h : Alike S f g) : f.anchor = g.anchor := by
  refine h.opened_bind (fun t => .ok t.anchor) ?_
  obtain ⟨p, hp⟩ := h.tree
  rw [hp]

theorem Alike.finalized (h : Alike S f g) : f.finalized = g.finalized := by
  refine h.opened_bind (fun t => (t.snapshot t.anchor).bind fun entry => .ok (Entry.node entry)) ?_
  obtain ⟨p, hp⟩ := h.tree
  rw [hp]
  rfl

theorem Alike.size (h : Alike S f g) : f.size = g.size := by
  unfold Frontier.size
  obtain ⟨p, hp⟩ := h.tree
  rw [h.poisoned, hp]
  rfl

theorem Alike.containsBlock (h : Alike S f g) (root : Root) :
    f.containsBlock root = g.containsBlock root := by
  refine h.served_bind (fun t => .ok (t.block? root).isSome) ?_
  obtain ⟨p, hp⟩ := h.tree
  rw [hp]
  rfl

theorem Alike.extendsAnchor (h : Alike S f g) (root : Root) :
    f.extendsAnchor root = g.extendsAnchor root := by
  refine h.served_bind (fun t => .ok (t.blocks.contains root)) ?_
  obtain ⟨p, hp⟩ := h.tree
  rw [hp]

theorem Alike.ancestry (h : Alike S f g) (a b : Root) : Chain.ancestry f a b = Chain.ancestry g a b := by
  show (if f.poisoned then _ else _) = if g.poisoned then _ else _
  rw [h.poisoned, h.tree.ancestry]

end Frontier

/-- Whether a question is not about the branch of the head, with the anchor at a slot. -/
def Question.Headless (anchor : UInt64) : Question → Prop
  | slot s => s ≤ anchor
  | _ => True

namespace Frontier

variable {σ ρ : Type} {S : σ → ρ → Prop} {f : Frontier σ} {g : Frontier ρ}

/-- Frontiers that are equal but for their heads answer alike what is not about the branch of the head. -/
theorem Alike.ask (h : Alike S f g) {q : Question} (hq : q.Headless f.tree.anchor.slot) :
    q.ask f = q.ask g := by
  cases q with
  | slot s =>
    refine h.served_bind (fun t => serve (.unknownSlot s) (t.canonical? s)) ?_
    obtain ⟨p, hp⟩ := h.tree
    have hslot : s ≤ f.tree.anchor.slot := hq
    have hslot' : s ≤ g.tree.anchor.slot := by rwa [hp]
    unfold ForkTree.canonical?
    rw [if_pos (Or.inl hslot), if_pos (Or.inl hslot')]
  | closest root bound =>
    refine h.served_bind (fun t => (t.closest root bound).bind fun entry => .ok (Entry.node entry)) ?_
    rw [h.tree.closest]
  | stateRoot root =>
    refine h.served_bind (fun t => serve (.unknownStateRoot root) (t.byStateRoot? root)) ?_
    obtain ⟨p, hp⟩ := h.tree
    rw [hp]
    rfl
  | blockRoot root =>
    refine h.served_bind (fun t => serve (.unknownBlockRoot root) (t.block? root)) ?_
    obtain ⟨p, hp⟩ := h.tree
    rw [hp]
    rfl
  | position q =>
    refine h.served_bind (fun t => serve (.unknownPosition q) (t.unfinalized? q)) ?_
    obtain ⟨p, hp⟩ := h.tree
    rw [hp]
    rfl

end Frontier

end BeaconHistory
