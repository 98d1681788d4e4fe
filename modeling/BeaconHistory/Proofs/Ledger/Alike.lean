import BeaconHistory.Proofs.Frontier.Headless
import BeaconHistory.Proofs.Ledger.Lookups

/-!
# Ledger.Alike — ledgers over archives that behave alike

Main statement: two ledgers with the same records, over archives that behave alike, take and refuse the
same entries and answer every question alike.
-/

namespace BeaconHistory

open Operation (Parallel)

/-! ## 1. Archives -/

/-- Archives that are related by `R` take and refuse the same states, give the same ones back, and stay
related. -/
structure Archive.Alike {τ ρ : Type} [Archive τ] [Archive ρ] (R : τ → ρ → Prop) : Prop where
  put : ∀ (p : Position) (root : Root) (state : State), Parallel R (Archive.put p root state)
    (Archive.put p root state)
  get : ∀ (a : τ) (b : ρ), R a b → (Archive.get a : Root → _) = Archive.get b

theorem Archive.alike_eq (τ : Type) [Archive τ] : Archive.Alike (Eq : τ → τ → Prop) := by
  refine ⟨fun p root state a b h => ?_, fun a b h => h ▸ rfl⟩
  subst h
  cases Archive.put p root state a with
  | ok _ a => exact .ok rfl
  | error e a => exact .error rfl

namespace Ledger

/-! ## 2. What is answered -/

variable {τ ρ : Type} {R : τ → ρ → Prop} {l : Ledger τ} {k : Ledger ρ}

/-- The ledgers are equal but for what was measured, over archives that are related. -/
structure Alike (R : τ → ρ → Prop) (l : Ledger τ) (k : Ledger ρ) : Prop where
  spec : l.spec = k.spec
  archive : R l.archive k.archive
  start : l.start = k.start
  records : l.records = k.records
  blocks : l.blocks = k.blocks
  states : l.states = k.states
  poisoned : l.poisoned = k.poisoned

namespace Alike

theorem next (h : Alike R l k) : l.next = k.next := by
  unfold Ledger.next
  rw [h.start, h.records]

theorem record? (h : Alike R l k) (slot : UInt64) : l.record? slot = k.record? slot := by
  unfold Ledger.record?
  rw [h.start, h.records]

theorem checkLink (h : Alike R l k) (s : Summary) : l.checkLink s = k.checkLink s := by
  unfold Ledger.checkLink
  rw [h.next, h.records]

theorem lastOfRun (h : Alike R l k) (root : Root) (n : Nat) (slot : UInt64) :
    l.lastOfRun root n slot = k.lastOfRun root n slot := by
  have hcarries : l.carries root = k.carries root := by
    funext slot
    unfold carries
    rw [h.record?]
  rw [Keeps.lastOfRun_eq, Keeps.lastOfRun_eq, hcarries]

theorem serve (h : Alike R l k) (missing : Query.Error) (found : Option Summary) :
    l.serve missing found = k.serve missing found := by
  unfold Ledger.serve
  rw [h.spec]

theorem withArchive (h : Alike R l k) {a : τ} {b : ρ} (hab : R a b) :
    Alike R { l with archive := a } { k with archive := b } :=
  ⟨h.spec, hab, h.start, h.records, h.blocks, h.states, h.poisoned⟩

theorem append (h : Alike R l k) (s : Summary) : Alike R (l.append s) (k.append s) := by
  refine ⟨h.spec, h.archive, h.start, ?_, ?_, ?_, h.poisoned⟩
  · exact congrArg (Array.push · s) h.records
  · exact congrArg (Std.ExtTreeMap.insertIfNew · s.blockRoot s.slot) h.blocks
  · exact congrArg (Std.ExtTreeMap.insert · s.stateRoot s.slot) h.states

theorem opened_bind {α : Type} (h : Alike R l k) {query : Ledger τ → Except Query.Error α}
    {query' : Ledger ρ → Except Query.Error α} (hsame : query l = query' k) :
    l.opened.bind query = k.opened.bind query' := by
  unfold opened
  rw [h.poisoned]
  cases k.poisoned with
  | true => rfl
  | false => exact hsame

theorem closest (h : Alike R l k) (root : Root) (bound : UInt64) :
    l.closest root bound = k.closest root bound := by
  refine h.opened_bind ?_
  rw [h.blocks]
  cases k.blocks[root]? with
  | none => rfl
  | some first =>
    dsimp only
    rw [h.lastOfRun, h.record?, h.serve]

theorem containsBlock (h : Alike R l k) (root : Root) : l.containsBlock root = k.containsBlock root :=
  h.opened_bind (by rw [h.blocks])

variable [Archive τ] [Archive ρ]

theorem ask (h : Alike R l k) (q : Question) : q.ask l = q.ask k := by
  cases q with
  | stateRoot root =>
    refine h.opened_bind ?_
    rw [h.serve, h.states, funext h.record?]
  | blockRoot root =>
    refine h.opened_bind ?_
    rw [h.serve, h.blocks, funext h.record?]
  | position p =>
    refine h.opened_bind ?_
    rw [h.serve, h.record?]
  | slot s =>
    refine h.opened_bind ?_
    rw [h.serve, h.record?]
  | closest root bound => exact h.closest root bound

theorem bySlot (h : Alike R l k) (slot : UInt64) : l.bySlot slot = k.bySlot slot := h.ask (.slot slot)

theorem span (h : Alike R l k) : Chain.span l = Chain.span k :=
  h.opened_bind (by rw [h.start, h.next])

theorem ancestry (h : Alike R l k) (a b : Root) : Chain.ancestry l a b = Chain.ancestry k a b := by
  show l.ancestry a b = k.ancestry a b
  unfold Ledger.ancestry
  rw [h.poisoned, h.blocks]

theorem files (hR : Archive.Alike R) (h : Alike R l k) : l.files = k.files := by
  unfold Ledger.files
  rw [hR.get _ _ h.archive, funext h.bySlot]

end Alike

/-! ## 3. What is ingested -/

variable [Archive τ] [Archive ρ]

theorem parallel_ingest (hR : Archive.Alike R) (entry : Snapshot) :
    Parallel (Alike R) (ingest entry) (ingest entry) := by
  intro l k h
  cases hl : l.poisoned with
  | true =>
    have hk : k.poisoned = true := h.poisoned ▸ hl
    rw [show ingest entry l = .error (.refused .poisoned) l from if_pos hl,
      show ingest entry k = .error (.refused .poisoned) k from if_pos hk]
    exact .error h
  | false =>
    have hk : k.poisoned = false := h.poisoned ▸ hl
    have hlink := h.checkLink entry.summary
    cases hl' : l.checkLink entry.summary with
    | error e =>
      rw [ingest_of_checkLink_error hl hl', ingest_of_checkLink_error hk (hlink ▸ hl')]
      exact .error h
    | ok _ =>
      have hput := hR.put entry.position entry.summary.stateRoot entry.state _ _ h.archive
      rw [ingest_eq hl hl', ingest_eq hk (hlink ▸ hl')]
      generalize Archive.put entry.position entry.summary.stateRoot entry.state l.archive = x at hput ⊢
      generalize Archive.put entry.position entry.summary.stateRoot entry.state k.archive = y at hput ⊢
      cases hput with
      | ok hab => exact .ok ((h.withArchive hab).append entry.summary)
      | @error e a b hab =>
        cases e with
        | refused e => exact .error (h.withArchive hab)
        | broke fault => exact .error { h.withArchive hab with poisoned := rfl }

theorem alike_sink (hR : Archive.Alike R) : Frontier.Sink.Alike (Alike R) := by
  refine ⟨fun entry l k h => ?_, fun _ _ _ h => h⟩
  have hingest := parallel_ingest hR entry l k h
  simp only [Frontier.Sink.offer]
  generalize ingest entry l = x at hingest ⊢
  generalize ingest entry k = y at hingest ⊢
  cases hingest with
  | ok h => exact .ok h
  | error h => exact .error h

end Ledger

end BeaconHistory
