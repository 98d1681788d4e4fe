import BeaconHistory.Proofs.Frontier.Run

/-!
# Frontier.Watched — a sink whose calls are noted

A watched sink passes every call on and notes which entries were taken and which were pruned, in the
order of the calls.  Main statement: a frontier does under watch what it does without.
-/

namespace BeaconHistory.Frontier

/-- A sink with the entries that it took and those that it was told to be pruned. -/
structure Watched (σ : Type) where
  sink : σ
  accepted : List Snapshot
  pruned : List Snapshot

variable {σ α β γ δ : Type}

namespace Watched

variable [Sink σ]

def offer (entry : Snapshot) : Operation Rejection (Watched σ) Unit := fun w =>
  match Sink.offer entry w.sink with
  | .ok _ sink => .ok () { w with sink := sink, accepted := w.accepted ++ [entry] }
  | .error failure sink => .error failure { w with sink := sink }

def prune (entry : Snapshot) (w : Watched σ) : Watched σ :=
  { w with sink := Sink.prune entry w.sink, pruned := w.pruned ++ [entry] }

instance : Sink (Watched σ) := ⟨offer, prune⟩

theorem steady (h : Sink.Steady σ) : Sink.Steady (Watched σ) := by
  intro entry w fault w' hbroke
  have hoffer : offer entry w = .error (.broke fault) w' := hbroke
  unfold offer at hoffer
  cases hresult : Sink.offer entry w.sink with
  | ok a sink =>
    rw [hresult] at hoffer
    cases hoffer
  | error failure sink =>
    rw [hresult] at hoffer
    cases hoffer
    exact h entry w.sink fault sink hresult

end Watched

/-! ## 1. What is noted -/

-- How far a hand-over went, without what was noted.
def HandOver.unwatched (h : HandOver (Watched σ)) : HandOver σ := ⟨h.accepted, h.stopped, h.sink.sink⟩

section

variable [Sink σ]

theorem handOver_watched (path : List Snapshot) (w : Watched σ) :
    (handOver path w).unwatched = handOver path w.sink ∧
      (handOver path w).sink.accepted = w.accepted ++ (handOver path w).accepted ∧
      (handOver path w).sink.pruned = w.pruned := by
  induction path generalizing w with
  | nil => exact ⟨rfl, (List.append_nil _).symm, rfl⟩
  | cons entry path ih =>
    unfold handOver
    simp only [Sink.offer, Watched.offer]
    cases Sink.offer entry w.sink with
    | error failure sink => exact ⟨rfl, (List.append_nil _).symm, rfl⟩
    | ok a sink =>
      obtain ⟨hsame, haccepted, hpruned⟩ := ih { w with sink, accepted := w.accepted ++ [entry] }
      dsimp only at hsame ⊢
      refine ⟨?_, haccepted.trans (List.append_assoc _ _ _), hpruned⟩
      rw [← hsame]
      rfl

theorem pruneAll_watched (entries : List Snapshot) (w : Watched σ) :
    pruneAll entries w = ⟨pruneAll entries w.sink, w.accepted, w.pruned ++ entries⟩ := by
  induction entries generalizing w with
  | nil =>
    rw [List.append_nil]
    rfl
  | cons entry entries ih =>
    have hrest := ih (Sink.prune entry w)
    rw [show (Sink.prune entry w).pruned = w.pruned ++ [entry] from rfl, List.append_assoc] at hrest
    exact hrest

end

/-! ## 2. Changes without what is noted -/

-- The frontier with another sink, under watch and with nothing noted yet.
def watchedBy {τ : Type} (f : Frontier σ) (sink : τ) : Frontier (Watched τ) :=
  ⟨f.tree, ⟨sink, [], []⟩, f.poisoned, f.metrics⟩

def watched (f : Frontier σ) : Frontier (Watched σ) := f.watchedBy f.sink

def unwatched (f : Frontier (Watched σ)) : Frontier σ := ⟨f.tree, f.sink.sink, f.poisoned, f.metrics⟩

theorem unwatched_watchedBy {τ : Type} (f : Frontier σ) (sink : τ) :
    (f.watchedBy sink).unwatched = { f with sink := sink } := rfl

-- An answer of a watched frontier, with the values read by `r`.
def unwatch (r : α → β) :
    EStateM.Result (Failure Error) (Frontier (Watched σ)) α → EStateM.Result (Failure Error) (Frontier σ) β
  | .ok a f => .ok (r a) f.unwatched
  | .error e f => .error e f.unwatched

/-- Without what is noted, the change of a watched frontier is `op'`. -/
def Erases (r : α → β) (op : Change (Watched σ) α) (op' : Change σ β) : Prop :=
  ∀ f, unwatch r (op f) = op' f.unwatched

theorem erases_pure (r : α → β) (a : α) :
    Erases r (pure a : Change (Watched σ) α) (pure (r a) : Change σ β) := fun _ => rfl

theorem erases_throw (r : α → β) (e : Failure Error) :
    Erases r (throw e : Change (Watched σ) α) (throw e : Change σ β) := fun _ => rfl

theorem Erases.bind {r : α → β} {s : γ → δ} {op : Change (Watched σ) α} {op' : Change σ β}
    {k : α → Change (Watched σ) γ} {k' : β → Change σ δ} (hop : Erases r op op')
    (hk : ∀ a, Erases s (k a) (k' (r a))) : Erases s (op >>= k) (op' >>= k') := by
  intro f
  have hf := hop f
  show unwatch s (EStateM.bind op k f) = EStateM.bind op' k' f.unwatched
  unfold EStateM.bind
  rw [← hf]
  cases op f with
  | ok a g => exact hk a g
  | error e g => rfl

theorem Erases.exclusively {op : Change (Watched σ) α} {op' : Change σ α} (h : Erases id op op') :
    Erases id (exclusively op) (Frontier.exclusively op') := by
  intro f
  cases hopen : f.poisoned with
  | true =>
    have hopen' : f.unwatched.poisoned = true := hopen
    rw [exclusively_of_poisoned _ hopen, exclusively_of_poisoned _ hopen']
    rfl
  | false =>
    have hopen' : f.unwatched.poisoned = false := hopen
    rw [exclusively_of_open _ hopen, exclusively_of_open _ hopen', ← h f]
    cases op f with
    | ok a g => rfl
    | error e g => cases e <;> rfl

theorem erases_onTree (growth : ForkTree.Growth α) :
    Erases id (onTree growth : Change (Watched σ) α) (onTree growth : Change σ α) := by
  intro f
  show unwatch id (onTree growth f) = onTree growth f.unwatched
  unfold onTree
  rw [show f.unwatched.tree = f.tree from rfl]
  cases growth f.tree <;> rfl

theorem erases_measure (m : Metrics) :
    Erases id (measure m : Change (Watched σ) Unit) (measure m : Change σ Unit) := fun _ => rfl

-- A question about the tree has the same answer.
theorem erases_ofTree (query : ForkTree → Except Error α) :
    Erases id (Operation.ofOutcome fun f : Frontier (Watched σ) => Outcome.ofExcept (query f.tree))
      (Operation.ofOutcome fun f : Frontier σ => Outcome.ofExcept (query f.tree)) := by
  intro f
  unfold Operation.ofOutcome
  dsimp only
  rw [show f.unwatched.tree = f.tree from rfl]
  cases query f.tree <;> rfl

section

variable [Sink σ]

theorem erases_handToSink (path : List Snapshot) :
    Erases HandOver.unwatched (handToSink path : Change (Watched σ) _) (handToSink path : Change σ _) := by
  intro f
  obtain ⟨hsame, -, -⟩ := handOver_watched path f.sink
  show EStateM.Result.ok (handOver path f.sink).unwatched _ = _
  rw [hsame]
  show EStateM.Result.ok _ (Frontier.mk f.tree (handOver path f.sink).unwatched.sink _ _) = _
  rw [hsame]
  rfl

theorem erases_reanchor (a : Position) :
    Erases id (reanchor a : Change (Watched σ) Unit) (reanchor a : Change σ Unit) := by
  intro f
  show EStateM.Result.ok () (Frontier.mk (f.tree.reanchor a).1
    (pruneAll (f.tree.reanchor a).2 f.sink).sink _ _) = _
  rw [pruneAll_watched]
  rfl

theorem erases_reanchorAfter (accepted : List Snapshot) :
    Erases id (reanchorAfter accepted : Change (Watched σ) Unit) (reanchorAfter accepted : Change σ Unit) := by
  unfold reanchorAfter
  cases accepted.getLast? with
  | none => exact erases_pure id ()
  | some last => exact (erases_measure _).bind fun _ => erases_reanchor _

theorem erases_finalizePath (target : Position) :
    Erases id (finalizePath target : Change (Watched σ) Nat) (finalizePath target : Change σ Nat) := by
  refine (erases_ofTree fun t => t.pathTo target).bind fun path => ?_
  refine (erases_handToSink path).bind fun handed => ?_
  rw [show handed.unwatched.stopped = handed.stopped from rfl]
  cases handed.stopped with
  | none =>
    exact (erases_measure _).bind fun _ => (erases_reanchor _).bind fun _ => erases_pure id _
  | some stop =>
    obtain ⟨entry, failure⟩ := stop
    cases failure with
    | broke fault => exact erases_throw id _
    | refused rejection =>
      exact (erases_measure _).bind fun _ =>
        (erases_reanchorAfter _).bind fun _ => erases_throw id _

theorem erases_finalizeAfter (growth : ForkTree.Growth Unit) (target : Position) :
    Erases id (finalizeAfter growth target : Change (Watched σ) Nat)
      (finalizeAfter growth target : Change σ Nat) := by
  refine Erases.exclusively ((erases_ofTree fun t => isFinalized t target).bind fun finalized => ?_)
  cases finalized with
  | true => exact erases_pure id 0
  | false => exact (erases_onTree growth).bind fun _ => erases_finalizePath target

theorem erases_finalize (target : Position) :
    Erases id (finalize target : Change (Watched σ) Nat) (finalize target : Change σ Nat) :=
  erases_finalizeAfter (pure ()) target

theorem erases_finalizeCheckpoint (c : Checkpoint) :
    Erases id (finalizeCheckpoint c : Change (Watched σ) Nat) (finalizeCheckpoint c : Change σ Nat) :=
  fun f => erases_finalizeAfter (ForkTree.reachSlot c.root (checkpointPosition f.spec c).slot)
    (checkpointPosition f.spec c) f

end

theorem erases_addBlock (b : Block) :
    Erases id (addBlock b : Change (Watched σ) Snapshot) (addBlock b : Change σ Snapshot) := by
  refine Erases.exclusively ((erases_onTree _).bind fun entry => ?_)
  refine Erases.bind (r := Frontier.unwatched) (fun _ => rfl) fun f => ?_
  exact (erases_measure (.frontierSize f.tree.size)).bind fun _ => erases_pure id entry

theorem erases_setHead (root : Root) :
    Erases id (setHead root : Change (Watched σ) Unit) (setHead root : Change σ Unit) :=
  (erases_onTree _).exclusively

/-! ## 3. Calls -/

theorem Erases.left {op : Change (Watched σ) α} {op' : Change σ α} (h : Erases id op op')
    (f : Frontier (Watched σ)) : (op.after f).unwatched = op'.after f.unwatched := by
  rw [Operation.after_eq, Operation.after_eq, ← h f]
  cases op f <;> rfl

theorem Erases.outcome {op : Change (Watched σ) α} {op' : Change σ α} (h : Erases id op op')
    (f : Frontier (Watched σ)) : op.outcome f = op'.outcome f.unwatched := by
  unfold Operation.outcome EStateM.run
  rw [← h f]
  cases op f <;> rfl

variable [Sink σ]

theorem Call.unwatched_after (c : Call) (f : Frontier (Watched σ)) :
    (c.after f).unwatched = c.after f.unwatched := by
  cases c with
  | addBlock b => exact (erases_addBlock b).left f
  | setHead root => exact (erases_setHead root).left f
  | finalize target => exact (erases_finalize target).left f
  | finalizeCheckpoint c => exact (erases_finalizeCheckpoint c).left f

theorem Call.outcome_unwatched (c : Call) (f : Frontier (Watched σ)) :
    c.outcome f = c.outcome f.unwatched := by
  cases c with
  | addBlock b => exact congrArg Outcome.done ((erases_addBlock b).outcome f)
  | setHead root => exact (erases_setHead root).outcome f
  | finalize target => exact congrArg Outcome.done ((erases_finalize target).outcome f)
  | finalizeCheckpoint c => exact congrArg Outcome.done ((erases_finalizeCheckpoint c).outcome f)

/-- A run under watch is the run without. -/
theorem unwatched_play (calls : List Call) (f : Frontier (Watched σ)) :
    (play calls f).unwatched = play calls f.unwatched := by
  induction calls generalizing f with
  | nil => rfl
  | cons c calls ih =>
    show (play calls (c.after f)).unwatched = play calls (c.after f.unwatched)
    rw [ih, c.unwatched_after]

omit [Sink σ] in
theorem Call.accepted_unwatched (c : Call) (f : Frontier (Watched σ)) :
    c.accepted f = c.accepted f.unwatched := by
  cases c with
  | addBlock b =>
    dsimp only [accepted]
    rw [(erases_addBlock b).outcome f]
  | setHead root => rfl
  | finalize target => rfl
  | finalizeCheckpoint c => rfl

theorem accepted_unwatched (calls : List Call) (f : Frontier (Watched σ)) :
    accepted calls f = accepted calls f.unwatched := by
  induction calls generalizing f with
  | nil => rfl
  | cons c calls ih =>
    show c.accepted f ++ accepted calls (c.after f) =
      c.accepted f.unwatched ++ accepted calls (c.after f.unwatched)
    rw [ih, c.unwatched_after, c.accepted_unwatched]

theorem hashed_unwatched (calls : List Call) (f : Frontier (Watched σ)) :
    hashed calls f = hashed calls f.unwatched := by
  induction calls generalizing f with
  | nil => rfl
  | cons c calls ih =>
    show c.hashed f ++ hashed calls (c.after f) = c.hashed f ++ hashed calls (c.after f.unwatched)
    rw [ih, c.unwatched_after]

end BeaconHistory.Frontier
