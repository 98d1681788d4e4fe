import BeaconHistory.Proofs.Outcome

/-!
# Parallel — two runs side by side

Two operations run in parallel when, started in related states, they give one answer and leave related
states.  Sequences run in parallel if their parts do.  Of two lists that are equal but for some elements,
an element of either side that is left out is passed alone, and the others are passed in pairs.
-/

namespace BeaconHistory

/-! ## 1. Operations -/

namespace Operation

variable {ε σ ρ α β : Type} {R : σ → ρ → Prop}

/-- One answer of two runs, which leave related states. -/
inductive Same (R : σ → ρ → Prop) :
    EStateM.Result (Failure ε) σ α → EStateM.Result (Failure ε) ρ α → Prop where
  | ok {a : α} {s : σ} {r : ρ} (h : R s r) : Same R (.ok a s) (.ok a r)
  | error {e : Failure ε} {s : σ} {r : ρ} (h : R s r) : Same R (.error e s) (.error e r)

/-- Started in related states, the operations give one answer and leave related states. -/
def Parallel (R : σ → ρ → Prop) (op : Operation ε σ α) (op' : Operation ε ρ α) : Prop :=
  ∀ s r, R s r → Same R (op s) (op' r)

variable {op : Operation ε σ α} {op' : Operation ε ρ α} {s : σ} {r : ρ}

theorem Same.outcome_eq (h : Same R (op s) (op' r)) : op.outcome s = op'.outcome r := by
  unfold outcome EStateM.run
  generalize op s = x at h ⊢
  generalize op' r = y at h ⊢
  cases h <;> rfl

theorem Same.after (h : Same R (op s) (op' r)) : R (op.after s) (op'.after r) := by
  rw [after_eq, after_eq]
  generalize op s = x at h ⊢
  generalize op' r = y at h ⊢
  cases h with
  | ok h => exact h
  | error h => exact h

theorem parallel_pure (a : α) : Parallel R (pure a : Operation ε σ α) (pure a : Operation ε ρ α) :=
  fun _ _ h => .ok h

theorem parallel_refuse (e : ε) :
    Parallel R (refuse e : Operation ε σ α) (refuse e : Operation ε ρ α) := fun _ _ h => .error h

theorem parallel_modify {f : σ → σ} {g : ρ → ρ} (h : ∀ s r, R s r → R (f s) (g r)) :
    Parallel R (modify f : Operation ε σ Unit) (modify g : Operation ε ρ Unit) :=
  fun s r hsr => .ok (h s r hsr)

theorem parallel_ofOutcome {query : σ → Outcome ε α} {query' : ρ → Outcome ε α}
    (h : ∀ s r, R s r → query s = query' r) : Parallel R (ofOutcome query) (ofOutcome query') := by
  intro s r hsr
  unfold ofOutcome
  rw [h s r hsr]
  cases query' r with
  | ok a => exact .ok hsr
  | error e => exact .error hsr

namespace Parallel

theorem bind {f : α → Operation ε σ β} {g : α → Operation ε ρ β} (h : Parallel R op op')
    (hf : ∀ a, Parallel R (f a) (g a)) : Parallel R (op >>= f) (op' >>= g) := by
  intro s r hsr
  have hop := h s r hsr
  show Same R (EStateM.bind op f s) (EStateM.bind op' g r)
  unfold EStateM.bind
  generalize op s = x at hop ⊢
  generalize op' r = y at hop ⊢
  cases hop with
  | ok h => exact hf _ _ _ h
  | error h => exact .error h

theorem get_bind {f : σ → Operation ε σ β} {g : ρ → Operation ε ρ β}
    (h : ∀ s r, R s r → Same R (f s s) (g r r)) : Parallel R (get >>= f) (get >>= g) := h

theorem outcome_eq (h : Parallel R op op') (hsr : R s r) : op.outcome s = op'.outcome r :=
  (h s r hsr).outcome_eq

theorem after (h : Parallel R op op') (hsr : R s r) : R (op.after s) (op'.after r) :=
  (h s r hsr).after

end Parallel

end Operation

/-! ## 2. Lists that are equal but for some elements -/

/-- Two lists that are equal once the elements in `skipped` are left out. -/
inductive EqualBut {α : Type} (skipped : α → Bool) : List α → List α → Prop where
  | nil : EqualBut skipped [] []
  | left {a : α} {l m : List α} (ha : skipped a = true) (h : EqualBut skipped l m) :
      EqualBut skipped (a :: l) m
  | right {a : α} {l m : List α} (ha : skipped a = true) (h : EqualBut skipped l m) :
      EqualBut skipped l (a :: m)
  | both {a : α} {l m : List α} (ha : skipped a = false) (h : EqualBut skipped l m) :
      EqualBut skipped (a :: l) (a :: m)

namespace EqualBut

variable {α : Type} {skipped : α → Bool} {l m : List α}

theorem append_right (h : EqualBut skipped l m) {later : List α}
    (hlater : ∀ a ∈ later, skipped a = true) : EqualBut skipped l (later ++ m) := by
  induction later with
  | nil => exact h
  | cons a later ih =>
    exact .right (hlater a (List.mem_cons_self ..)) (ih fun b hb => hlater b (List.mem_cons_of_mem _ hb))

theorem of_filter_eq (h : l.filter (!skipped ·) = m.filter (!skipped ·)) : EqualBut skipped l m := by
  induction l generalizing m with
  | nil =>
    have hm : ∀ a ∈ m, skipped a = true := by simpa using List.filter_eq_nil_iff.1 h.symm
    simpa using EqualBut.nil.append_right hm
  | cons a l ih =>
    cases ha : skipped a with
    | true =>
      rw [List.filter_cons_of_neg (by simp [ha])] at h
      exact .left ha (ih h)
    | false =>
      -- What comes before the same element on the other side is left out.
      rw [List.filter_cons_of_pos (by simp [ha])] at h
      obtain ⟨before, rest, rfl, hbefore, -, hrest⟩ := List.filter_eq_cons_iff.1 h.symm
      exact (EqualBut.both ha (ih hrest.symm)).append_right fun b hb => by simpa using hbefore b hb

end EqualBut

end BeaconHistory
