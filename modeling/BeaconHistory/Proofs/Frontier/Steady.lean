import BeaconHistory.Proofs.Frontier.Replayed

/-!
# Frontier.Steady — what cannot break off

Main statement: with constants that can divide and a sink that does not break off, no call breaks off,
whatever it is given and wherever the frontier stands.
-/

namespace BeaconHistory.Frontier

variable {σ α : Type} {f : Frontier σ}

theorem steady_closed (change : Change σ α) (h : f.poisoned = true) : (exclusively change).Steady f := by
  intro fault g hbroke
  rw [exclusively_of_poisoned change h] at hbroke
  cases hbroke

theorem closing_ne_broke {answer : EStateM.Result (Failure Error) (Frontier σ) α}
    (h : ∀ fault g, answer ≠ .error (.broke fault) g) (fault : Fault) (g : Frontier σ) :
    closing answer ≠ .error (.broke fault) g := by
  intro hbroke
  cases answer with
  | ok a g => cases hbroke
  | error e g =>
    cases e with
    | refused e => cases hbroke
    | broke fault' => exact h fault' g rfl

theorem addBlock_steady (hspec : f.tree.spec.validate = .ok ()) (b : Block) : (addBlock b).Steady f := by
  cases hopen : f.poisoned with
  | true => exact steady_closed _ hopen
  | false =>
    intro fault g hbroke
    obtain ⟨_, heq⟩ := addBlock_eq b hopen
    rw [heq] at hbroke
    cases hinsert : ForkTree.insertBlock b f.tree with
    | ok entry u =>
      rw [hinsert] at hbroke
      cases hbroke
    | error e u =>
      rw [hinsert] at hbroke
      cases e with
      | refused e => cases hbroke
      | broke fault' => exact (ForkTree.insertBlock_fails b _ u hinsert).not_broke hspec fault' rfl

theorem setHead_steady (root : Root) : (setHead root).Steady f := by
  cases hopen : f.poisoned with
  | true => exact steady_closed _ hopen
  | false =>
    intro fault g hbroke
    rw [setHead_eq root hopen] at hbroke
    cases hp : f.tree.blocks[root]? <;> rw [hp] at hbroke <;> cases hbroke

variable [Sink σ]

theorem finalizePath_steady (hsteady : Sink.Steady σ) (target : Position) :
    (finalizePath target).Steady f := by
  intro fault g hbroke
  cases hpath : f.tree.pathTo target with
  | error e =>
    rw [finalizePath_of_no_path hpath] at hbroke
    cases hbroke
  | ok path =>
    cases hstopped : (handOver path f.sink).stopped with
    | none =>
      obtain ⟨_, heq⟩ := finalizePath_of_taken hpath hstopped
      rw [heq] at hbroke
      cases hbroke
    | some stop =>
      obtain ⟨entry, failure⟩ := stop
      cases failure with
      | refused rejection =>
        obtain ⟨_, heq⟩ := finalizePath_of_refused hpath hstopped
        rw [heq] at hbroke
        cases hbroke
      | broke fault' => exact stopped_ne_broke hsteady path f.sink entry fault' hstopped

theorem finalizeAfter_steady (hsteady : Sink.Steady σ) (hspec : f.tree.spec.validate = .ok ())
    {growth : ForkTree.Growth Unit} (hgrowth : growth.Fails (ForkTree.GrowthFailure f.tree.spec) f.tree)
    (target : Position) : (finalizeAfter growth target).Steady f := by
  cases hopen : f.poisoned with
  | true => exact steady_closed _ hopen
  | false =>
    intro fault g hbroke
    rw [finalizeAfter_eq growth target hopen] at hbroke
    cases hfinalized : isFinalized f.tree target with
    | error e =>
      rw [hfinalized] at hbroke
      cases hbroke
    | ok finalized =>
      rw [hfinalized] at hbroke
      cases finalized with
      | true => cases hbroke
      | false =>
        cases hgrown : growth f.tree with
        | error e u =>
          rw [hgrown] at hbroke
          refine closing_ne_broke (fun fault' g' heq => ?_) fault g hbroke
          cases heq
          exact (hgrowth _ u hgrown).not_broke hspec fault' rfl
        | ok a u =>
          rw [hgrown] at hbroke
          exact closing_ne_broke (finalizePath_steady hsteady target) fault g hbroke

theorem finalize_steady (hsteady : Sink.Steady σ) (hspec : f.tree.spec.validate = .ok ())
    (target : Position) : (finalize target).Steady f :=
  finalizeAfter_steady hsteady hspec (Operation.fails_of_ok rfl) target

theorem finalizeCheckpoint_steady (hsteady : Sink.Steady σ) (hspec : f.tree.spec.validate = .ok ())
    (c : Checkpoint) : (finalizeCheckpoint c).Steady f := by
  intro fault g hbroke
  rw [finalizeCheckpoint_eq] at hbroke
  exact finalizeAfter_steady hsteady hspec (ForkTree.reachSlot_fails _ _) _ fault g hbroke

theorem Call.steady (hsteady : Sink.Steady σ) (hspec : f.tree.spec.validate = .ok ()) (c : Call) :
    (c.outcome f).Steady := by
  cases c with
  | addBlock b => exact (addBlock_steady hspec b).outcome.done
  | setHead root => exact (setHead_steady root).outcome
  | finalize target => exact (finalize_steady hsteady hspec target).outcome.done
  | finalizeCheckpoint c => exact (finalizeCheckpoint_steady hsteady hspec c).outcome.done

end BeaconHistory.Frontier
