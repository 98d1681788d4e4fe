import BeaconHistory.Entry
import BeaconHistory.Proofs.Outcome

/-!
# Entry — what is read of an entry

An entry in memory has its state, and a filed entry fetches it.  Main statement: whichever it is, and
whatever was read of it before, the state and the duties that are read are those of one state, and only
the context can keep them from being read.
-/

namespace BeaconHistory

variable {α : Type} {spec : Spec} {s : State} {ctx : Context} {memo : Memo}

/-- What may be kept of an entry that is read of the state `s`. -/
structure Memo.Of (spec : Spec) (s : State) (memo : Memo) : Prop where
  state : ∀ kept, memo.state = some kept → kept = s
  duties : ∀ kept, memo.duties = some kept → Duties.ofState spec s = .ok kept

theorem Memo.of_empty (spec : Spec) (s : State) : Memo.empty.Of spec s :=
  ⟨fun _ h => (by cases h), fun _ h => (by cases h)⟩

/-- Whatever was read before, `read` gives `answer` unless the context interrupts it. -/
def Tells (spec : Spec) (s : State) (ctx : Context) (answer : Outcome Query.Error α)
    (read : Operation Query.Error Memo α) : Prop :=
  ∀ memo : Memo, memo.Of spec s →
    (read.outcome memo = answer ∨ ∃ e, ctx.check = .error e ∧ read.outcome memo = .error e) ∧
      (read.after memo).Of spec s

theorem Tells.eq_of_outcome {answer : α} {read : Operation Query.Error Memo α}
    (h : Tells spec s ctx (.ok answer) read) (hmemo : memo.Of spec s) {a : α}
    (ha : read.outcome memo = .ok a) : a = answer := by
  rcases (h memo hmemo).1 with heq | ⟨e, -, heq⟩
  · exact Except.ok.inj (ha.symm.trans heq)
  · rw [ha] at heq
    cases heq

namespace Entry

/-- All that is read of the entry is read of the state `s`. -/
structure Reads (files : Files) (e : Entry) (s : State) : Prop where
  state : ∀ ctx, Tells e.spec s ctx (.ok s) (e.state files ctx)
  duties : ∀ ctx, Tells e.spec s ctx ((Duties.ofState e.spec s).mapReason .transition)
    (e.duties files ctx)

variable {files : Files} {e : Entry}

theorem exists_of_toOption {answer : Except Query.Error Entry} {summary : Summary}
    (h : answer.toOption.map Entry.summary = some summary) : ∃ e, answer = .ok e ∧ e.summary = summary := by
  cases answer with
  | error failure => cases h
  | ok e => exact ⟨e, rfl, Option.some.inj h⟩

/-- Read from their files, the two entries have the same summary and state, and the same duties, which are
computed from the state with the same constants. -/
structure SameContent (files : Files) (e : Entry) (files' : Files) (e' : Entry) : Prop where
  summary : e'.summary = e.summary
  spec : e'.spec = e.spec
  state : ∃ s, e.Reads files s ∧ e'.Reads files' s

/-! ## 1. Duties -/

theorem duties_eq (files : Files) (ctx : Context) (e : Entry) (memo : Memo) :
    e.duties files ctx memo =
      match memo.duties with
      | some duties => .ok duties memo
      | none => match e.stateForDuties files ctx memo with
        | .error failure memo => .error failure memo
        | .ok s memo => match (Duties.ofState e.spec s).mapReason Query.Error.transition with
          | .error failure => .error failure memo
          | .ok duties => .ok duties { memo with duties := some duties } := by
  unfold duties Operation.ofOutcome
  rw [Operation.get_bind]
  cases memo.duties with
  | some duties => rfl
  | none =>
    simp only [bind, EStateM.bind]
    cases e.stateForDuties files ctx memo with
    | error failure memo => rfl
    | ok s memo =>
      dsimp only
      cases Outcome.mapReason Query.Error.transition (Duties.ofState e.spec s) <;> rfl

-- The duties are those of the state that they are computed from, and are kept.
theorem tells_duties (h : Tells e.spec s ctx (.ok s) (e.stateForDuties files ctx)) :
    Tells e.spec s ctx ((Duties.ofState e.spec s).mapReason .transition) (e.duties files ctx) := by
  intro memo hmemo
  have hstate := h memo hmemo
  unfold Operation.outcome Operation.after EStateM.run at hstate ⊢
  rw [duties_eq]
  cases hkept : memo.duties with
  | some duties =>
    rw [hmemo.duties duties hkept]
    exact ⟨Or.inl rfl, hmemo⟩
  | none =>
    cases hread : e.stateForDuties files ctx memo with
    | error failure memo' =>
      rw [hread] at hstate
      obtain ⟨heq | ⟨_, hcheck, heq⟩, hmemo'⟩ := hstate
      · cases heq
      · cases heq
        exact ⟨Or.inr ⟨_, hcheck, rfl⟩, hmemo'⟩
    | ok s' memo' =>
      rw [hread] at hstate
      obtain ⟨heq | ⟨_, _, heq⟩, hmemo'⟩ := hstate
      · cases heq
        dsimp only
        cases hduties : Duties.ofState e.spec s with
        | error failure => exact ⟨Or.inl rfl, hmemo'⟩
        | ok duties =>
          refine ⟨Or.inl rfl, hmemo'.state, fun kept heq => ?_⟩
          cases heq
          exact hduties
      · cases heq

/-! ## 2. Entries in memory and on file -/

-- A state in memory is there without a look at the context, and computing with it checks the context.
theorem tells_pure (spec : Spec) (s : State) (ctx : Context) :
    Tells spec s ctx (.ok s) (pure s) ∧
      Tells spec s ctx (.ok s) fun memo => match ctx.check with
        | .error interruption => .error interruption memo
        | .ok () => .ok s memo := by
  refine ⟨fun memo hmemo => ⟨Or.inl rfl, hmemo⟩, fun memo hmemo => ?_⟩
  unfold Operation.outcome Operation.after EStateM.run
  cases hctx : ctx.check with
  | error interruption => exact ⟨Or.inr ⟨_, rfl, rfl⟩, hmemo⟩
  | ok _ => exact ⟨Or.inl rfl, hmemo⟩

theorem reads_node (files : Files) (x : Snapshot) : (node x).Reads files x.state :=
  ⟨fun ctx => (tells_pure x.spec x.state ctx).1, fun ctx => tells_duties (tells_pure x.spec x.state ctx).2⟩

theorem reads_advanced (files : Files) (x : Snapshot) : (advanced x).Reads files x.state :=
  ⟨fun ctx => (tells_pure x.spec x.state ctx).1, fun ctx => tells_duties (tells_pure x.spec x.state ctx).2⟩

theorem reads_filed {summary : Summary} (spec : Spec) (h : files.fetch summary.stateRoot = .ok s) :
    (filed summary spec).Reads files s := by
  have hstate (ctx : Context) : Tells spec s ctx (.ok s) ((filed summary spec).state files ctx) := by
    intro memo hmemo
    unfold Operation.outcome Operation.after EStateM.run state
    dsimp only
    cases hkept : memo.state with
    | some kept =>
      rw [hmemo.state kept hkept]
      exact ⟨Or.inl rfl, hmemo⟩
    | none =>
      cases hctx : ctx.check with
      | error interruption => exact ⟨Or.inr ⟨_, rfl, rfl⟩, hmemo⟩
      | ok _ =>
        rw [h]
        refine ⟨Or.inl rfl, fun kept heq => ?_, hmemo.duties⟩
        cases heq
        rfl
  exact ⟨hstate, fun ctx => tells_duties (hstate ctx)⟩

end Entry

end BeaconHistory
