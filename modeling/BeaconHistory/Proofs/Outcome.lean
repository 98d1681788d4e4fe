import BeaconHistory.Failure

/-!
# Outcome — sequences of computations that may fail

A sequence succeeds if its parts do, and breaks off only where one of them does.
-/

namespace BeaconHistory

/-- A computation that may be refused, and does not break off. -/
def Outcome.Steady {ε α : Type} (o : Outcome ε α) : Prop := ∀ fault, o ≠ .error (.broke fault)

namespace Outcome

variable {ε δ α β : Type}

@[simp] theorem steady_ok (a : α) : Steady (.ok a : Outcome ε α) := by
  intro fault h
  cases h

@[simp] theorem steady_refuse (e : ε) : Steady (refuse e : Outcome ε α) := by
  intro fault h
  cases h

theorem steady_refuse_bind (e : ε) (f : α → Outcome ε β) : Steady (refuse e >>= f) := by
  intro fault h
  cases h

@[simp] theorem steady_ofExcept (e : Except ε α) : Steady (ofExcept e) := by
  intro fault h
  cases e <;> cases h

theorem Steady.bind {o : Outcome ε α} {f : α → Outcome ε β} (ho : o.Steady)
    (hf : ∀ a, o = .ok a → (f a).Steady) : Steady (o >>= f) := by
  cases o with
  | ok a => exact hf a rfl
  | error e =>
    intro fault h
    cases h
    exact ho fault rfl

theorem Steady.mapReason {o : Outcome ε α} (h : o.Steady) (f : ε → δ) : (o.mapReason f).Steady := by
  intro fault hbroke
  cases o with
  | ok a => cases hbroke
  | error e =>
    cases e with
    | refused e => cases hbroke
    | broke fault' => exact h fault' rfl

theorem bind_eq_ok_iff {o : Outcome ε α} {f : α → Outcome ε β} {b : β} :
    (o >>= f) = .ok b ↔ ∃ a, o = .ok a ∧ f a = .ok b := by
  cases o with
  | ok a => exact ⟨fun h => ⟨a, rfl, h⟩, fun ⟨_, ha, h⟩ => by cases ha; exact h⟩
  | error e => exact ⟨fun h => (by cases h), fun ⟨_, ha, _⟩ => (by cases ha)⟩

theorem mapReason_eq_refused {o : Outcome ε α} {f : ε → δ} {d : δ}
    (h : o.mapReason f = .error (.refused d)) : ∃ e, o = .error (.refused e) ∧ f e = d := by
  cases o with
  | ok a => cases h
  | error e =>
    cases e with
    | refused e => exact ⟨e, rfl, Failure.refused.inj (Except.error.inj h)⟩
    | broke fault => cases h

theorem eq_ok_of_toBool {o : Outcome ε Unit} (h : o.toBool = true) : o = .ok () := by
  cases o with
  | ok _ => rfl
  | error e => cases h

theorem eq_ok_of_toOption {o : Outcome ε α} {a : α} (h : o.toOption = some a) : o = .ok a := by
  cases o with
  | ok b => exact congrArg Except.ok (Option.some.inj h)
  | error e => cases h

-- Why there is no answer.
def failure? : Outcome ε α → Option (Failure ε)
  | .ok _ => none
  | .error e => some e

theorem eq_error_of_failure? {o : Outcome ε α} {e : Failure ε} (h : o.failure? = some e) : o = .error e := by
  cases o with
  | ok a => cases h
  | error e' => exact congrArg Except.error (Option.some.inj h)

def done (o : Outcome ε α) : Outcome ε Unit := o.map fun _ => ()

theorem Steady.done {o : Outcome ε α} (h : o.Steady) : o.done.Steady := by
  intro fault hbroke
  cases o with
  | ok a => cases hbroke
  | error e =>
    cases hbroke
    exact h fault rfl

theorem done_eq_ok {o : Outcome ε α} (h : o.done = .ok ()) : ∃ a, o = .ok a := by
  cases o with
  | ok a => exact ⟨a, rfl⟩
  | error e => cases h

theorem done_eq_error {o : Outcome ε α} {e : Failure ε} (h : o.done = .error e) : o = .error e := by
  cases o with
  | ok a => cases h
  | error e' =>
    cases h
    rfl

end Outcome

namespace Operation

variable {ε σ α β : Type} {op : Operation ε σ α} {s s' : σ}

def left : EStateM.Result (Failure ε) σ α → σ
  | .ok _ s => s
  | .error _ s => s

@[simp] theorem get_bind (f : σ → Operation ε σ β) (s : σ) : (get >>= f) s = f s s := rfl

theorem bind_of_ok {a : α} (h : op s = .ok a s') (f : α → Operation ε σ β) : (op >>= f) s = f a s' := by
  show EStateM.bind op f s = f a s'
  unfold EStateM.bind
  rw [h]

theorem bind_of_error {e : Failure ε} (h : op s = .error e s') (f : α → Operation ε σ β) :
    (op >>= f) s = .error e s' := by
  show EStateM.bind op f s = .error e s'
  unfold EStateM.bind
  rw [h]

theorem after_eq (op : Operation ε σ α) (s : σ) : op.after s = left (op s) := rfl

theorem after_eq_of_ok {a : α} (h : op s = .ok a s') : op.after s = s' := by
  rw [after_eq, h]
  rfl

theorem after_eq_of_error {e : Failure ε} (h : op s = .error e s') : op.after s = s' := by
  rw [after_eq, h]
  rfl

theorem outcome_of_ok {a : α} (h : op s = .ok a s') : op.outcome s = .ok a := by
  unfold outcome EStateM.run
  rw [h]

theorem outcome_of_error {e : Failure ε} (h : op s = .error e s') : op.outcome s = .error e := by
  unfold outcome EStateM.run
  rw [h]

theorem exists_of_outcome_ok {a : α} (h : op.outcome s = .ok a) : ∃ s', op s = .ok a s' := by
  unfold outcome EStateM.run at h
  cases hresult : op s with
  | ok a' s' =>
    rw [hresult] at h
    cases h
    exact ⟨s', rfl⟩
  | error e s' =>
    rw [hresult] at h
    cases h

theorem exists_of_toBool (h : (op.outcome s).toBool = true) : ∃ a s', op s = .ok a s' := by
  cases hresult : op.outcome s with
  | ok a => exact ⟨a, exists_of_outcome_ok hresult⟩
  | error e =>
    rw [hresult] at h
    cases h

theorem exists_of_outcome_error {e : Failure ε} (h : op.outcome s = .error e) :
    ∃ s', op s = .error e s' := by
  unfold outcome EStateM.run at h
  cases hresult : op s with
  | ok a s' =>
    rw [hresult] at h
    cases h
  | error e' s' =>
    rw [hresult] at h
    cases h
    exact ⟨s', rfl⟩

/-- Started in `s`, the operation fails only in ways that `P` tells. -/
def Fails (P : Failure ε → Prop) (op : Operation ε σ α) (s : σ) : Prop :=
  ∀ e s', op s = .error e s' → P e

-- The operation may be refused when it is started in `s`, and does not break off.
def Steady (op : Operation ε σ α) (s : σ) : Prop := ∀ fault s', op s ≠ .error (.broke fault) s'

theorem Steady.outcome (h : op.Steady s) : (op.outcome s).Steady := by
  intro fault hbroke
  obtain ⟨s', hs'⟩ := exists_of_outcome_error hbroke
  exact h fault s' hs'

theorem Steady.reach {op : Operation ε σ Unit} (h : op.Steady s) : (op.reach s).Steady := by
  intro fault hbroke
  unfold Operation.reach EStateM.run at hbroke
  cases hresult : op s with
  | ok _ s' =>
    rw [hresult] at hbroke
    cases hbroke
  | error e s' =>
    rw [hresult] at hbroke
    cases hbroke
    exact h fault s' hresult

variable {P : Failure ε → Prop}

theorem fails_of_ok {a : α} (h : op s = .ok a s') : Fails P op s := by
  intro e u herror
  rw [h] at herror
  cases herror

theorem Fails.bind {f : α → Operation ε σ β} (hop : Fails P op s)
    (hf : ∀ a s', op s = .ok a s' → Fails P (f a) s') : Fails P (op >>= f) s := by
  intro e u h
  have h : EStateM.bind op f s = .error e u := h
  unfold EStateM.bind at h
  cases hresult : op s with
  | ok a s' =>
    rw [hresult] at h
    exact hf a s' hresult e u h
  | error e' s' =>
    rw [hresult] at h
    cases h
    exact hop e u hresult

theorem fails_ofOutcome {query : σ → Outcome ε α} (h : ∀ e, query s = .error e → P e) :
    Fails P (ofOutcome query) s := by
  intro e u herror
  unfold ofOutcome at herror
  cases hquery : query s with
  | ok a =>
    rw [hquery] at herror
    cases herror
  | error e' =>
    rw [hquery] at herror
    cases herror
    exact h e hquery

/-- Started where `I` holds, the operation leaves a state where it holds, whether it fails or not. -/
def Keeps (I : σ → Prop) (op : Operation ε σ α) : Prop := ∀ s, I s → I (op.after s)

variable {I : σ → Prop}

theorem keeps_pure (a : α) : Keeps I (pure a : Operation ε σ α) := fun _ hs => hs

theorem keeps_ofOutcome (query : σ → Outcome ε α) : Keeps I (ofOutcome query) := by
  intro s hs
  unfold after EStateM.run ofOutcome
  cases query s <;> exact hs

theorem Keeps.bind {f : α → Operation ε σ β} (hop : Keeps I op) (hf : ∀ a, Keeps I (f a)) :
    Keeps I (op >>= f) := by
  intro s hs
  have hafter := hop s hs
  show I (left (EStateM.bind op f s))
  unfold EStateM.bind
  rw [after_eq] at hafter
  cases hresult : op s with
  | ok a s' =>
    rw [hresult] at hafter
    exact hf a s' hafter
  | error e s' =>
    rw [hresult] at hafter
    exact hafter

-- What is done may depend on the state that is read.
theorem keeps_get_bind {f : σ → Operation ε σ β} (hf : ∀ s, I s → I ((f s).after s)) :
    Keeps I (get >>= f) := hf

theorem Keeps.discard (hop : Keeps I op) : Keeps I (discard op) := by
  intro s hs
  have hafter := hop s hs
  rw [after_eq] at hafter ⊢
  show I (left (EStateM.map _ op s))
  unfold EStateM.map
  cases hresult : op s <;> rw [hresult] at hafter <;> exact hafter

end Operation

end BeaconHistory
