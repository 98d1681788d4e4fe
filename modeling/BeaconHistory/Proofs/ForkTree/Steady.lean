import BeaconHistory.Proofs.ForkTree.Stored

/-!
# ForkTree.Steady — how growth fails

No growth is refused in the name of a sink, or for a walk that misses the anchor.  With constants that
can divide no transition breaks off, so neither does any growth of a tree, whatever blocks and slots it
is given.
-/

namespace BeaconHistory.ForkTree

variable {t : ForkTree}

/-- How the growth of a tree with the constants `spec` may fail. -/
structure GrowthFailure (spec : Spec) (e : Failure Frontier.Error) : Prop where
  not_sink : ∀ p rejection, e ≠ .refused (.sink p rejection)
  not_stray : ∀ target anchor, e ≠ .refused (.notDescendant target anchor)
  not_broke : spec.validate = .ok () → ∀ fault, e ≠ .broke fault

theorem growthFailure_refused (spec : Spec) {reason : Frontier.Error}
    (h : ∀ p rejection, reason ≠ .sink p rejection)
    (h' : ∀ target anchor, reason ≠ .notDescendant target anchor) : GrowthFailure spec (.refused reason) :=
  ⟨fun p rejection heq => h p rejection (Failure.refused.inj heq),
    fun target anchor heq => h' target anchor (Failure.refused.inj heq), fun _ _ heq => (by cases heq)⟩

theorem spec_extend (n : Nat) (tip : Position) (t : ForkTree) : ((extend n tip).after t).spec = t.spec :=
  keeps_extend (I := fun u => u.spec = t.spec) (fun _ _ _ hu => hu) n tip t rfl

theorem built_fails {change : State → Outcome Transition.Error State} (p : Position)
    (hchange : t.spec.validate = .ok () → ∀ s, (change s).Steady) {e : Failure Frontier.Error}
    (h : (do
      let old ← Outcome.ofExcept (t.snapshot p)
      let state ← (change old.state).mapReason Frontier.Error.transition
      return Snapshot.ofState t.spec state) = .error e) : GrowthFailure t.spec e := by
  unfold snapshot at h
  cases hold : t.snapshot? p with
  | none =>
    rw [hold] at h
    cases h
    exact growthFailure_refused _ (fun _ _ h => (by cases h)) fun _ _ h => (by cases h)
  | some old =>
    rw [hold] at h
    simp only [Outcome.ofExcept_ok, bind, Except.bind] at h
    cases hstate : change old.state with
    | ok state =>
      rw [hstate] at h
      cases h
    | error failure =>
      rw [hstate] at h
      cases h
      cases failure with
      | refused reason => exact growthFailure_refused _ (fun _ _ h => (by cases h)) fun _ _ h => (by cases h)
      | broke fault =>
        refine ⟨fun _ _ heq => (by cases heq), fun _ _ heq => (by cases heq), fun hspec fault' _ => ?_⟩
        exact hchange hspec old.state fault hstate

theorem extend_fails (n : Nat) (tip : Position) :
    (extend n tip).Fails (GrowthFailure t.spec) t := by
  induction n generalizing tip t with
  | zero => exact Operation.fails_of_ok rfl
  | succ n ih =>
    have hone : (extendOnce tip).Fails (GrowthFailure t.spec) t := by
      intro e u h
      exact built_fails tip (fun hspec => State.advanced_steady hspec _) (extendOnce_eq_error h).2
    apply hone.bind
    intro q u hu
    have hextend : extend 1 tip t = .ok q u := by
      rw [extend_succ, hu]
      rfl
    have huSpec : u.spec = t.spec := by
      rw [← Operation.after_eq_of_ok hextend, spec_extend]
    exact huSpec ▸ ih q

theorem insertOn_fails (b : Block) (parent : Position) :
    (insertOn b parent).Fails (GrowthFailure t.spec) t := by
  unfold insertOn extendTo
  apply (extend_fails _ parent).bind
  intro tip u hu
  have huSpec : u.spec = t.spec := by
    rw [← Operation.after_eq_of_ok hu, spec_extend]
  rw [← huSpec]
  apply (extend_fails _ tip).bind
  intro pre v hv
  have hvSpec : v.spec = u.spec := by
    rw [← Operation.after_eq_of_ok hv, spec_extend]
  rw [← hvSpec]
  refine (Operation.fails_ofOutcome fun e he => ?_).bind fun post w _ => Operation.fails_of_ok rfl
  exact built_fails pre (fun hspec => State.applyBlock_steady hspec b) he

theorem insertBlock_fails (b : Block) : (insertBlock b).Fails (GrowthFailure t.spec) t := by
  intro e u h
  rw [insertBlock_eq] at h
  split at h
  · cases h
    exact growthFailure_refused _ (fun _ _ h => (by cases h)) fun _ _ h => (by cases h)
  split at h
  · cases h
  split at h
  · cases h
    exact growthFailure_refused _ (fun _ _ h => (by cases h)) fun _ _ h => (by cases h)
  split at h
  · cases h
    exact growthFailure_refused _ (fun _ _ h => (by cases h)) fun _ _ h => (by cases h)
  exact insertOn_fails b _ e u h

theorem reachSlot_fails (root : Root) (slot : UInt64) :
    (reachSlot root slot).Fails (GrowthFailure t.spec) t := by
  intro e u h
  rw [reachSlot_eq] at h
  cases hp : t.blocks[root]? with
  | none =>
    rw [hp] at h
    cases h
    exact growthFailure_refused _ (fun _ _ h => (by cases h)) fun _ _ h => (by cases h)
  | some p =>
    rw [hp] at h
    dsimp only at h
    cases hextend : extendTo p slot t with
    | ok q w =>
      rw [hextend] at h
      cases h
    | error e' w =>
      rw [hextend] at h
      cases h
      exact extend_fails _ p e u hextend

end BeaconHistory.ForkTree
