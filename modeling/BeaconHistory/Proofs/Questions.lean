import BeaconHistory.Proofs.Frontier.Reading
import BeaconHistory.Proofs.Ledger.Ingest

/-!
# Questions — what a region is asked

The frontier and the ledger answer the same questions, each out of its own indexes.  Main statement: an
open region has no answer only because it does not hold what is asked for.
-/

namespace BeaconHistory

/-! ## 1. Questions -/

/-- The questions that an entry is the answer to. -/
inductive Question where
  | stateRoot (root : Root)
  | blockRoot (root : Root)
  | position (p : Position)
  | slot (s : UInt64)
  | closest (root : Root) (bound : UInt64)

namespace Question

def ask {γ : Type} [Chain γ] (c : γ) : Question → Except Query.Error Entry
  | stateRoot root => Chain.byStateRoot c root
  | blockRoot root => Chain.byBlockRoot c root
  | position p => Chain.byPosition c p
  | slot s => Chain.bySlot c s
  | closest root bound => Chain.closest c root bound

-- Whether it asks for one entry, and not for the best of several.
def isExact : Question → Bool
  | closest _ _ => false
  | _ => true

end Question

/-! ## 2. Questions without an answer -/

namespace Frontier

variable {σ : Type} {f : Frontier σ} {e : Query.Error}

theorem ask_of_open (h : f.poisoned = false) (q : Question) :
    q.ask f = match q with
      | .stateRoot root => serve (.unknownStateRoot root) (f.tree.byStateRoot? root)
      | .blockRoot root => serve (.unknownBlockRoot root) (f.tree.block? root)
      | .position p => serve (.unknownPosition p) (f.tree.unfinalized? p)
      | .slot s => serve (.unknownSlot s) (f.tree.canonical? s)
      | .closest root bound => (f.tree.closest root bound).map Entry.node := by
  have hserved := served_of_open h
  cases q with
  | stateRoot root =>
    show (do serve _ ((← f.served).byStateRoot? root)) = _
    rw [hserved]
    rfl
  | blockRoot root =>
    show (do serve _ ((← f.served).block? root)) = _
    rw [hserved]
    rfl
  | position p =>
    show (do serve _ ((← f.served).unfinalized? p)) = _
    rw [hserved]
    rfl
  | slot s => exact bySlot_of_open h s
  | closest root bound =>
    show (do return Entry.node (← (← f.served).closest root bound)) = _
    rw [hserved]
    show (do return Entry.node (← f.tree.closest root bound)) = (f.tree.closest root bound).map Entry.node
    cases f.tree.closest root bound <;> rfl

theorem isNotFound_of_serve {missing : Query.Error} {found : Option Snapshot}
    (hmissing : missing.isNotFound = true) (h : serve missing found = .error e) :
    e.isNotFound = true := by
  cases found with
  | none =>
    cases h
    exact hmissing
  | some x => cases h

/-- An open frontier has no answer only because it does not hold what is asked for. -/
theorem isNotFound_of_ask (hopen : f.poisoned = false) {q : Question} (h : q.ask f = .error e) :
    e.isNotFound = true := by
  rw [ask_of_open hopen] at h
  cases q with
  | stateRoot root => exact isNotFound_of_serve rfl h
  | blockRoot root => exact isNotFound_of_serve rfl h
  | position p => exact isNotFound_of_serve rfl h
  | slot s => exact isNotFound_of_serve rfl h
  | closest root bound =>
    dsimp only [ForkTree.closest] at h
    split at h
    · cases h
      rfl
    · split at h
      · cases h
        rfl
      · split at h <;> cases h
        rfl

end Frontier

namespace Ledger

variable {τ : Type} [Archive τ] {l : Ledger τ} {e : Query.Error}

theorem ask_of_open (h : l.poisoned = false) (q : Question) :
    q.ask l = match q with
      | .stateRoot root => l.serve (.unknownStateRoot root) (l.states[root]?.bind l.record?)
      | .blockRoot root => l.serve (.unknownBlockRoot root) (l.blocks[root]?.bind l.record?)
      | .position p => l.serve (.unknownPosition p)
          ((l.record? p.slot).filter fun summary => summary.blockRoot = p.root)
      | .slot s => l.serve (.unknownSlot s) (l.record? s)
      | .closest root bound => l.closest root bound := by
  have hopened := opened_of_open h
  cases q with
  | stateRoot root =>
    show (do (← l.opened).serve _ _) = _
    rw [hopened]
    rfl
  | blockRoot root =>
    show (do (← l.opened).serve _ _) = _
    rw [hopened]
    rfl
  | position p =>
    show (do (← l.opened).serve _ _) = _
    rw [hopened]
    rfl
  | slot s => exact bySlot_of_open h s
  | closest root bound => rfl

omit [Archive τ] in
theorem isNotFound_of_serve {missing : Query.Error} {found : Option Summary}
    (hmissing : missing.isNotFound = true) (h : l.serve missing found = .error e) :
    e.isNotFound = true := by
  cases found with
  | none =>
    cases h
    exact hmissing
  | some s => cases h

/-- An open ledger has no answer only because it does not hold what is asked for. -/
theorem isNotFound_of_ask (hopen : l.poisoned = false) {q : Question} (h : q.ask l = .error e) :
    e.isNotFound = true := by
  rw [ask_of_open hopen] at h
  cases q with
  | stateRoot root => exact isNotFound_of_serve rfl h
  | blockRoot root => exact isNotFound_of_serve rfl h
  | position p => exact isNotFound_of_serve rfl h
  | slot s => exact isNotFound_of_serve rfl h
  | closest root bound =>
    dsimp only [closest] at h
    rw [opened_of_open hopen] at h
    dsimp only [bind, Except.bind] at h
    split at h
    · cases h
      rfl
    · split at h
      · cases h
        rfl
      · exact isNotFound_of_serve rfl h

end Ledger

end BeaconHistory
