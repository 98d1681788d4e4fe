import BeaconHistory.Frontier.Basic
import BeaconHistory.Proofs.Outcome

/-!
# Frontier.Changes — the calls of a frontier, stage by stage

One equation for each call, with what it leaves behind wherever it stops.  The metrics are left out of
what is said about the frontier that is left.
-/

namespace BeaconHistory.Frontier

variable {σ α : Type} {f g : Frontier σ}

theorem exclusively_of_poisoned (change : Change σ α) (h : f.poisoned = true) :
    exclusively change f = .error (.refused .poisoned) f := if_pos h

-- An answer with the frontier that is left closed if the change broke off.
def closing : EStateM.Result (Failure Error) (Frontier σ) α →
    EStateM.Result (Failure Error) (Frontier σ) α
  | .ok a g => .ok a g
  | .error (.refused e) g => .error (.refused e) g
  | .error (.broke fault) g => .error (.broke fault) { g with poisoned := true }

theorem exclusively_of_open (change : Change σ α) (h : f.poisoned = false) :
    exclusively change f = closing (change f) := by
  unfold exclusively
  rw [if_neg (by rw [h]; decide)]
  cases change f with
  | ok a g => rfl
  | error e g => cases e <;> rfl

theorem eq_of_closing {answer : EStateM.Result (Failure Error) (Frontier σ) α} {a : α}
    (h : closing answer = .ok a g) : answer = .ok a g := by
  cases answer with
  | ok a' g' => exact h
  | error e g' => cases e <;> cases h

theorem eq_of_closing_refused {answer : EStateM.Result (Failure Error) (Frontier σ) α} {e : Error}
    (h : closing answer = .error (.refused e) g) : answer = .error (.refused e) g := by
  cases answer with
  | ok a g => cases h
  | error failure g =>
    cases failure with
    | refused e => exact h
    | broke fault => cases h

/-! ## 1. What a change keeps -/

theorem keeps_exclusively {I : Frontier σ → Prop} (hclose : ∀ f, I f → I { f with poisoned := true })
    {change : Change σ α} (hchange : change.Keeps I) : (exclusively change).Keeps I := by
  intro f hf
  cases hopen : f.poisoned with
  | true =>
    rw [Operation.after_eq, exclusively_of_poisoned change hopen]
    exact hf
  | false =>
    have hafter := hchange f hf
    rw [Operation.after_eq] at hafter ⊢
    rw [exclusively_of_open change hopen]
    cases hresult : change f with
    | ok a g =>
      rw [hresult] at hafter
      exact hafter
    | error e g =>
      rw [hresult] at hafter
      cases e with
      | refused e => exact hafter
      | broke fault => exact hclose g hafter

theorem keeps_onTree {I : Frontier σ → Prop} {growth : ForkTree.Growth α}
    (hgrowth : ∀ f : Frontier σ, growth.Keeps fun t => I { f with tree := t }) :
    (onTree growth).Keeps I := by
  intro f hf
  have hafter := hgrowth f f.tree hf
  rw [Operation.after_eq] at hafter ⊢
  unfold onTree
  cases hresult : growth f.tree <;> rw [hresult] at hafter <;> exact hafter

/-! ## 2. Calls that keep the anchor -/

theorem addBlock_eq (b : Block) (h : f.poisoned = false) :
    ∃ metrics, addBlock b f =
      match ForkTree.insertBlock b f.tree with
      | .ok entry u => .ok entry { f with tree := u, metrics := metrics }
      | .error (.refused e) u => .error (.refused e) { f with tree := u }
      | .error (.broke fault) u => .error (.broke fault) { f with tree := u, poisoned := true } := by
  unfold addBlock
  rw [exclusively_of_open _ h]
  simp only [bind, EStateM.bind, onTree]
  cases ForkTree.insertBlock b f.tree with
  | ok entry u => exact ⟨_, rfl⟩
  | error e u =>
    cases e with
    | refused e => exact ⟨f.metrics, rfl⟩
    | broke fault => exact ⟨f.metrics, rfl⟩

theorem setHead_eq (root : Root) (h : f.poisoned = false) :
    setHead root f =
      match f.tree.blocks[root]? with
      | some p => .ok () { f with tree := { f.tree with head := p } }
      | none => .error (.refused (.unknownBlock root)) f := by
  unfold setHead
  rw [exclusively_of_open _ h]
  simp only [onTree, ForkTree.setHead, Operation.get_bind]
  cases f.tree.blocks[root]? with
  | none => rfl
  | some p => rfl

/-! ## 3. Finalization -/

variable [Sink σ]

-- The tree after the sink took some entries: its anchor is the last one.
def settled (taken : List Snapshot) (t : ForkTree) : ForkTree :=
  match taken.getLast? with
  | none => t
  | some last => (t.reanchor last.position).1

-- What the sink is told to be pruned then.
def outcast (taken : List Snapshot) (t : ForkTree) : List Snapshot :=
  match taken.getLast? with
  | none => []
  | some last => (t.reanchor last.position).2

theorem finalizePath_of_no_path {target : Position} {e : Error} (h : f.tree.pathTo target = .error e) :
    finalizePath target f = .error (.refused e) f := by
  unfold finalizePath Operation.ofOutcome
  simp only [bind, EStateM.bind, h]
  rfl

theorem finalizePath_of_taken {target : Position} {path : List Snapshot}
    (hpath : f.tree.pathTo target = .ok path) (hstopped : (handOver path f.sink).stopped = none) :
    ∃ metrics, finalizePath target f = .ok path.length
      { f with
        tree := (f.tree.reanchor target).1
        sink := pruneAll (f.tree.reanchor target).2 (handOver path f.sink).sink
        metrics := metrics } := by
  unfold finalizePath Operation.ofOutcome
  simp only [bind, EStateM.bind, hpath, Outcome.ofExcept_ok, handToSink, hstopped]
  exact ⟨_, rfl⟩

theorem finalizePath_of_refused {target : Position} {path : List Snapshot} {entry : Snapshot}
    {rejection : Rejection} (hpath : f.tree.pathTo target = .ok path)
    (hstopped : (handOver path f.sink).stopped = some (entry, .refused rejection)) :
    ∃ metrics, finalizePath target f = .error (.refused (.sink entry.position rejection))
      { f with
        tree := settled (handOver path f.sink).accepted f.tree
        sink := pruneAll (outcast (handOver path f.sink).accepted f.tree) (handOver path f.sink).sink
        metrics := metrics } := by
  unfold finalizePath Operation.ofOutcome
  simp only [bind, EStateM.bind, hpath, Outcome.ofExcept_ok, handToSink, hstopped, reanchorAfter, settled,
    outcast]
  cases (handOver path f.sink).accepted.getLast? with
  | none => exact ⟨_, rfl⟩
  | some last => exact ⟨_, rfl⟩

theorem finalizePath_of_broke {target : Position} {path : List Snapshot} {entry : Snapshot}
    {fault : Fault} (hpath : f.tree.pathTo target = .ok path)
    (hstopped : (handOver path f.sink).stopped = some (entry, .broke fault)) :
    finalizePath target f = .error (.broke fault) { f with sink := (handOver path f.sink).sink } := by
  unfold finalizePath Operation.ofOutcome
  simp only [bind, EStateM.bind, hpath, Outcome.ofExcept_ok, handToSink, hstopped]
  rfl

theorem finalizeAfter_eq (growth : ForkTree.Growth Unit) (target : Position) (h : f.poisoned = false) :
    finalizeAfter growth target f =
      match isFinalized f.tree target with
      | .error e => .error (.refused e) f
      | .ok true => .ok 0 f
      | .ok false => match growth f.tree with
        | .error e u => closing (.error e { f with tree := u })
        | .ok _ u => closing (finalizePath target { f with tree := u }) := by
  unfold finalizeAfter
  rw [exclusively_of_open _ h]
  simp only [bind, EStateM.bind, Operation.ofOutcome]
  cases isFinalized f.tree target with
  | error e => rfl
  | ok finalized =>
    cases finalized with
    | true => rfl
    | false =>
      simp only [Outcome.ofExcept_ok, Bool.false_eq_true, if_false, EStateM.bind, onTree]
      cases growth f.tree <;> rfl

theorem finalize_eq_of_lt {target : Position} (h : f.poisoned = false)
    (hslot : f.tree.anchor.slot < target.slot) :
    finalize target f = closing (finalizePath target f) := by
  have hfinalized : isFinalized f.tree target = .ok false := if_pos hslot
  rw [show finalize target f = _ from finalizeAfter_eq (pure ()) target h, hfinalized]
  rfl

theorem finalizeCheckpoint_eq (c : Checkpoint) (f : Frontier σ) :
    finalizeCheckpoint c f =
      finalizeAfter (ForkTree.reachSlot c.root (checkpointPosition f.tree.spec c).slot)
        (checkpointPosition f.tree.spec c) f := rfl

theorem isFinalized_of_conflict {t : ForkTree} {target : Position} (hslot : target.slot = t.anchor.slot)
    (hne : target ≠ t.anchor) : isFinalized t target = .error (.conflictsWithFinalized target t.anchor) := by
  unfold isFinalized
  rw [if_neg (hslot ▸ UInt64.lt_irrefl _), if_pos ⟨hslot, hne⟩]

theorem isFinalized_eq_true_iff {t : ForkTree} {target : Position} :
    isFinalized t target = .ok true ↔ target.slot < t.anchor.slot ∨ target = t.anchor := by
  unfold isFinalized
  by_cases hlt : t.anchor.slot < target.slot
  · rw [if_pos hlt]
    refine ⟨fun h => (by cases h), ?_⟩
    rintro (hbefore | rfl)
    · exact absurd (UInt64.lt_trans hlt hbefore) (UInt64.lt_irrefl _)
    · exact absurd hlt (UInt64.lt_irrefl _)
  rw [if_neg hlt]
  by_cases hconflict : target.slot = t.anchor.slot ∧ target ≠ t.anchor
  · rw [if_pos hconflict]
    refine ⟨fun h => (by cases h), ?_⟩
    rintro (hbefore | heq)
    · exact absurd (hconflict.1 ▸ hbefore) (UInt64.lt_irrefl _)
    · exact absurd heq hconflict.2
  · rw [if_neg hconflict]
    refine ⟨fun _ => ?_, fun _ => rfl⟩
    rcases UInt64.lt_or_eq_of_le (UInt64.not_lt.1 hlt) with hbefore | hsame
    · exact Or.inl hbefore
    · exact Or.inr (Decidable.not_not.1 fun hne => hconflict ⟨hsame, hne⟩)

-- What is finalized already is not finalized again.
theorem finalizeAfter_of_finalized (growth : ForkTree.Growth Unit) {target : Position}
    (hopen : f.poisoned = false) (h : target.slot < f.tree.anchor.slot ∨ target = f.tree.anchor) :
    finalizeAfter growth target f = .ok 0 f := by
  rw [finalizeAfter_eq growth target hopen, isFinalized_eq_true_iff.2 h]

theorem isFinalized_eq_false_iff {t : ForkTree} {target : Position} :
    isFinalized t target = .ok false ↔ t.anchor.slot < target.slot := by
  unfold isFinalized
  by_cases hlt : t.anchor.slot < target.slot
  · simp [hlt]
  · rw [if_neg hlt]
    split <;> simp [hlt]

end BeaconHistory.Frontier
