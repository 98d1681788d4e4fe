import BeaconHistory.Proofs.Frontier.Finalization
import BeaconHistory.Proofs.Ledger.Lookups
import BeaconHistory.Proofs.Ledger.Tables

/-!
# Ledger.Filing — the states behind the records

A ledger records summaries, and its archive files their states under their roots, each root once.  Main
statement: whatever writes the archive refuses, every record has its own state on file, as long as the
states that are offered differ in their roots.
-/

namespace BeaconHistory

open Archive (Tables)

/-- An archive that files its states in `tables` in memory.  It may refuse a write, which then was made or
not, and does not break off. -/
structure Archive.InMemory {τ : Type} [Archive τ] (tables : τ → Tables) : Prop where
  steady : Archive.Steady τ
  filed : ∀ (p : Position) (root : Root) (state : State) (a a' : τ),
    Archive.put p root state a = .ok () a' → tables a' = (tables a).file p root state
  refused : ∀ (p : Position) (root : Root) (state : State) (a a' : τ) (e : Failure Archive.Error),
    Archive.put p root state a = .error e a' → tables a' = tables a ∨ tables a' = (tables a).file p root state
  get : ∀ (a : τ) (root : Root), Archive.get a root = (tables a).get root

theorem Archive.inMemory_tables : Archive.InMemory fun t : Tables => t where
  steady := Ledger.tables_steady
  filed p root state t t' h := by
    rcases t.put_cases p root state with ⟨_, -, -, hput⟩ | ⟨-, hput⟩
    · cases hput.symm.trans h
    · cases hput.symm.trans h
      rfl
  refused p root state t t' e h := by
    rcases t.put_cases p root state with ⟨_, -, -, hput⟩ | ⟨-, hput⟩
    · cases hput.symm.trans h
      exact Or.inl rfl
    · cases hput.symm.trans h
  get _ _ := rfl

namespace Ledger

variable {τ : Type} {l : Ledger τ} {tables : τ → Tables} {spec : Spec} {good : State → Prop}

/-! ## 1. Records and states -/

/-- Every record is the summary of a good state, and is indexed by its root. -/
structure Traces (good : State → Prop) (l : Ledger τ) : Prop where
  recorded : ∀ s ∈ l.records.toList, ∃ state, s = .ofState state ∧ good state
  indexed : l.Indexed

theorem Traces.mono {good' : State → Prop} (hsub : ∀ s, good s → good' s) (h : l.Traces good) :
    l.Traces good' := by
  refine ⟨fun s hs => ?_, h.indexed⟩
  obtain ⟨state, heq, hgood⟩ := h.recorded s hs
  exact ⟨state, heq, hsub state hgood⟩

theorem Traces.append (h : l.Traces good) (hpins : ∀ a b, good a → good b → a.root = b.root → a = b)
    {state : State} (hgood : good state) : (l.append (.ofState state)).Traces good := by
  have hrecords : (l.append (.ofState state)).records.toList =
      l.records.toList ++ [.ofState state] := toList_records_append _ _
  refine ⟨fun s hs => ?_, fun root slot => ?_⟩
  · rw [hrecords, List.mem_append, List.mem_singleton] at hs
    rcases hs with hs | rfl
    · exact h.recorded s hs
    · exact ⟨state, rfl, hgood⟩
  · show (l.states.insert (Summary.ofState state).stateRoot (Summary.ofState state).slot)[root]? =
      some slot ↔ _
    rw [Lookup.getElem?_insert, hrecords]
    simp only [List.mem_append, List.mem_singleton]
    by_cases hroot : (Summary.ofState state).stateRoot = root
    · -- A record with the same root is one of the same state, so it has the same slot.
      rw [if_pos hroot]
      constructor
      · intro hslot
        exact ⟨_, Or.inr rfl, hroot, Option.some.inj hslot⟩
      · rintro ⟨s, hs | rfl, hsroot, rfl⟩
        · obtain ⟨found, rfl, hfound⟩ := h.recorded s hs
          rw [hpins state found hgood hfound (hroot.trans hsroot.symm)]
        · rfl
    · rw [if_neg hroot, h.indexed root slot]
      constructor
      · rintro ⟨s, hs, hrest⟩
        exact ⟨s, Or.inl hs, hrest⟩
      · rintro ⟨s, hs | rfl, hsroot, hslot⟩
        · exact ⟨s, hs, hsroot, hslot⟩
        · exact absurd hsroot hroot

section

variable [Archive τ]

theorem left_offer (entry : Snapshot) (l : Ledger τ) :
    Operation.left (Frontier.Sink.offer entry l) = (ingest entry).after l := by
  rw [Operation.after_eq]
  simp only [Frontier.Sink.offer]
  cases ingest entry l <;> rfl

/-- Whatever the archive does, ingesting a good state keeps the records those of good states. -/
theorem Traces.ingested (h : l.Traces good) (hpins : ∀ a b, good a → good b → a.root = b.root → a = b)
    {entry : Snapshot} (hgood : good entry.state) : ((ingest entry).after l).Traces good := by
  rw [Operation.after_eq]
  unfold ingest
  split
  · exact h
  split
  · exact h
  cases Archive.put entry.position entry.summary.stateRoot entry.state l.archive with
  | ok _ archive =>
    have hsame : Traces good { l with archive := archive } := ⟨h.recorded, h.indexed⟩
    dsimp only
    rw [entry.summary_eq]
    exact hsame.append hpins hgood
  | error e archive => cases e <;> exact ⟨h.recorded, h.indexed⟩

theorem Traces.handed (h : l.Traces good) (hpins : ∀ a b, good a → good b → a.root = b.root → a = b)
    {path : List Snapshot} (hgood : ∀ entry ∈ path, good entry.state) :
    (Frontier.handOver path l).sink.Traces good := by
  refine Frontier.handOver_keeps (fun entry hentry l hl => ?_) h
  rw [left_offer]
  exact hl.ingested hpins (hgood entry hentry)

end

/-! ## 2. States on file -/

/-- Every state on file is good and filed under its own root, and every record has its state. -/
structure OnFile (tables : τ → Tables) (spec : Spec) (good : State → Prop) (l : Ledger τ) : Prop where
  spec : l.spec = spec
  filed : ∀ (root : Root) (state : State), (tables l.archive).states[root]? = some state →
    state.root = root ∧ good state
  recorded : ∀ s ∈ l.records.toList, ∃ state,
    (tables l.archive).states[s.stateRoot]? = some state ∧ s = .ofState state
  indexed : l.Indexed

namespace OnFile

theorem empty (start : UInt64) (spec : Spec) (good : State → Prop) {archive : τ}
    (hempty : tables archive = .empty) : (Ledger.empty start spec archive).OnFile tables spec good := by
  refine ⟨rfl, fun root state hfound => ?_, fun s hs => (by cases hs), fun root slot => ?_⟩
  · have hnone : (tables archive).states[root]? = some state := hfound
    rw [hempty] at hnone
    simp [Tables.empty] at hnone
  · simp [Ledger.empty]

-- Filing a good state under its root takes no other state off file.
theorem refiled (h : l.OnFile tables spec good) {l' : Ledger τ} (hspec : l'.spec = l.spec)
    (hrecords : l'.records = l.records) (hstates : l'.states = l.states) {p : Position} {state : State}
    (hgood : good state)
    (htables : tables l'.archive = tables l.archive ∨
      tables l'.archive = (tables l.archive).file p state.root state) :
    l'.OnFile tables spec good := by
  have hfile (root : Root) : (tables l'.archive).states[root]? = (tables l.archive).states[root]? ∨
      state.root = root ∧ (tables l.archive).states[root]? = none ∧
        (tables l'.archive).states[root]? = some state := by
    rcases htables with heq | heq
    · rw [heq]
      exact Or.inl rfl
    · have hnew : (tables l'.archive).states[root]? =
          if state.root = root ∧ (tables l.archive).states[root]? = none then some state
          else (tables l.archive).states[root]? := by
        rw [heq]
        exact Lookup.getElem?_insertIfNew _ _ _ _
      by_cases hcase : state.root = root ∧ (tables l.archive).states[root]? = none
      · exact Or.inr ⟨hcase.1, hcase.2, hnew.trans (if_pos hcase)⟩
      · exact Or.inl (hnew.trans (if_neg hcase))
  refine ⟨hspec.trans h.spec, fun root found hfound => ?_, fun s hs => ?_, ?_⟩
  · rcases hfile root with heq | ⟨hroot, -, heq⟩
    · rw [heq] at hfound
      exact h.filed root found hfound
    · rw [heq] at hfound
      cases hfound
      exact ⟨hroot, hgood⟩
  · rw [hrecords] at hs
    obtain ⟨found, hfound, heq⟩ := h.recorded s hs
    rcases hfile s.stateRoot with hsame | ⟨-, hnone, -⟩
    · exact ⟨found, hsame.trans hfound, heq⟩
    · rw [hnone] at hfound
      cases hfound
  · intro root slot
    rw [hstates, hrecords]
    exact h.indexed root slot

theorem traces (h : l.OnFile tables spec good) : l.Traces good := by
  refine ⟨fun s hs => ?_, h.indexed⟩
  obtain ⟨state, hfound, heq⟩ := h.recorded s hs
  exact ⟨state, heq, (h.filed _ _ hfound).2⟩

theorem append (h : l.OnFile tables spec good)
    (hpins : ∀ a b, good a → good b → a.root = b.root → a = b) {state : State}
    (hfiled : (tables l.archive).states[state.root]? = some state) :
    (l.append (.ofState state)).OnFile tables spec good := by
  have hgood := (h.filed _ _ hfiled).2
  refine ⟨h.spec, h.filed, fun s hs => ?_, (h.traces.append hpins hgood).indexed⟩
  rw [show (l.append (.ofState state)).records.toList = l.records.toList ++ [.ofState state] from
    toList_records_append _ _, List.mem_append, List.mem_singleton] at hs
  rcases hs with hs | rfl
  · exact h.recorded s hs
  · exact ⟨state, hfiled, rfl⟩

variable [Archive τ]

theorem get_eq (h : l.OnFile tables spec good) (hmemory : Archive.InMemory tables) {s : Summary}
    (hs : s ∈ l.records.toList) :
    ∃ state, Archive.get l.archive s.stateRoot = .ok state ∧ s = .ofState state ∧ good state := by
  obtain ⟨state, hfiled, heq⟩ := h.recorded s hs
  refine ⟨state, ?_, heq, (h.filed _ _ hfiled).2⟩
  rw [hmemory.get, Tables.get, hfiled]

-- A state that was filed just now is found under its root.
theorem found_of_put (h : l.OnFile tables spec good) (hmemory : Archive.InMemory tables)
    (hpins : ∀ a b, good a → good b → a.root = b.root → a = b) {p : Position} {state : State}
    (hgood : good state) {archive : τ} (hput : Archive.put p state.root state l.archive = .ok () archive) :
    (tables archive).states[state.root]? = some state := by
  rw [hmemory.filed _ _ _ _ _ hput]
  show ((tables l.archive).states.insertIfNew state.root state)[state.root]? = _
  rw [Lookup.getElem?_insertIfNew]
  cases hfound : (tables l.archive).states[state.root]? with
  | none => exact if_pos ⟨rfl, rfl⟩
  | some found =>
    obtain ⟨hroot, hfoundGood⟩ := h.filed _ _ hfound
    rw [if_neg fun hnew => (by cases hnew.2), hpins found state hfoundGood hgood hroot]

theorem ingested (h : l.OnFile tables spec good) (hmemory : Archive.InMemory tables)
    (hpins : ∀ a b, good a → good b → a.root = b.root → a = b) {entry : Snapshot}
    (hgood : good entry.state) : ((ingest entry).after l).OnFile tables spec good := by
  have hsummary := entry.summary_eq
  have hroot : entry.summary.stateRoot = entry.state.root := by rw [hsummary]; rfl
  rw [Operation.after_eq]
  unfold ingest
  split
  · exact h
  split
  · exact h
  rw [hroot]
  cases hput : Archive.put entry.position entry.state.root entry.state l.archive with
  | ok _ archive =>
    have hfiled : OnFile tables spec good { l with archive := archive } :=
      h.refiled rfl rfl rfl hgood (Or.inr (hmemory.filed _ _ _ _ _ hput))
    have hfound := h.found_of_put hmemory hpins hgood hput
    dsimp only
    rw [hsummary]
    exact hfiled.append hpins hfound
  | error e archive =>
    have htables := hmemory.refused _ _ _ _ _ _ hput
    cases e with
    | refused e => exact h.refiled rfl rfl rfl hgood htables
    | broke fault => exact h.refiled rfl rfl rfl hgood htables

/-- Handing over good states keeps every record's state on file. -/
theorem handed (h : l.OnFile tables spec good) (hmemory : Archive.InMemory tables)
    (hpins : ∀ a b, good a → good b → a.root = b.root → a = b) {path : List Snapshot}
    (hgood : ∀ entry ∈ path, good entry.state) :
    (Frontier.handOver path l).sink.OnFile tables spec good := by
  refine Frontier.handOver_keeps (fun entry hentry l hl => ?_) h
  rw [left_offer]
  exact hl.ingested hmemory hpins (hgood entry hentry)

end OnFile

end Ledger

end BeaconHistory
