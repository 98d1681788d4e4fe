import BeaconHistory.Proofs.History.Faithful

/-!
# History.Served — what is served is what execution gives

An entry is served by a lookup, by a range that may have been opened long before, or by advancing past
the entries that are held.  Main statement: whichever it is, and whenever it is read, the entry has the
state that plain execution of its branch gives, and the summary of that state.
-/

namespace BeaconHistory

variable {taken : Block → Prop} {spec : Spec} {origin s t : State} {blocks : List Block}

/-! ## 1. Advancing -/

namespace Query

theorem advance_eq_ok {ctx : Context} {files : Files} {start : Entry} {slot : UInt64} {a : Arrival}
    (h : advance ctx spec files start slot = .ok a) :
    a.entry = start ∨ ∃ s n t, (start.state files ctx).outcome .empty = .ok s ∧
      leaveSlots ctx spec n s = .ok t ∧ a.entry = .advanced (.ofState spec t) := by
  unfold advance at h
  split at h
  · cases h
    exact Or.inl rfl
  · obtain ⟨s, hs, h⟩ := Outcome.bind_eq_ok_iff.1 h
    obtain ⟨t, ht, h⟩ := Outcome.bind_eq_ok_iff.1 h
    cases h
    exact Or.inr ⟨s, _, t, hs, ht, rfl⟩

theorem towards_eq_ok {γ : Type} [Chain γ] {c : γ} {ctx : Context} {root : Root} {slot : UInt64}
    {a : Arrival} (h : towards c ctx root slot = .ok a) :
    ∃ start, Chain.closest c root slot = .ok start ∧
      advance ctx (Chain.spec c) (Chain.files c) start slot = .ok a := by
  unfold towards at h
  obtain ⟨block, -, h⟩ := Outcome.bind_eq_ok_iff.1 h
  split at h
  · cases h
  · obtain ⟨start, hstart, h⟩ := Outcome.bind_eq_ok_iff.1 h
    refine ⟨start, ?_, h⟩
    cases hclosest : Chain.closest c root slot with
    | ok entry =>
      rw [hclosest] at hstart
      exact congrArg Except.ok (Except.ok.inj hstart)
    | error e =>
      rw [hclosest] at hstart
      cases hstart

end Query

-- Slots that are left one by one extend a replay as well.
theorem Replays.leaveSlots {ctx : Context} {n : Nat} (h : Replays taken spec origin blocks s)
    (hs : s.Sealable) (hleave : Query.leaveSlots ctx spec n s = .ok t) :
    Replays taken spec origin blocks t := by
  induction n generalizing s with
  | zero =>
    cases hleave
    exact h
  | succ n ih =>
    obtain ⟨_, -, hleave⟩ := Outcome.bind_eq_ok_iff.1 hleave
    obtain ⟨next, hnext, hleave⟩ := Outcome.bind_eq_ok_iff.1 hleave
    have hadvanced := Outcome.mapReason_eq_ok_iff.1 hnext
    obtain ⟨hsealable, hroot⟩ := hs.advanced hadvanced
    exact ih (h.advance hadvanced hroot) hsealable hleave

namespace Span

/-- The entries that a range holds itself. -/
def snapshots : Span → List Snapshot
  | entries _ snapshots => snapshots
  | filed _ _ => []
  | joined first second => first.snapshots ++ second.snapshots

/-- What is read of a range is an entry that it holds, or one of the files. -/
theorem entry_cases {files : Files} {slot : UInt64} {span : Span} {e : Entry}
    (h : span.entry files slot = .ok e) :
    files.entryAt slot = .ok e ∨ ∃ x ∈ span.snapshots, e = .node x := by
  induction span with
  | entries start snapshots =>
    unfold entry at h
    split at h
    · split at h
      · next x hx =>
        cases h
        exact Or.inr ⟨x, List.mem_of_getElem? hx, rfl⟩
      · cases h
    · cases h
  | filed start stop =>
    unfold entry at h
    split at h
    · exact Or.inl h
    · cases h
  | joined first second ihFirst ihSecond =>
    unfold entry at h
    split at h
    · split at h
      · exact (ihFirst h).imp_right fun ⟨x, hx, heq⟩ => ⟨x, List.mem_append_left _ hx, heq⟩
      · exact (ihSecond h).imp_right fun ⟨x, hx, heq⟩ => ⟨x, List.mem_append_right _ hx, heq⟩
    · cases h

end Span

namespace History

open Frontier (tinyAnchor)

variable {τ : Type} [Archive τ] {h : History τ} {tables : τ → Archive.Tables} {anchor : Snapshot}
  {calls later : List Call} {state : State} {e : Entry} {files : Files} {first : Summary}

/-! ## 2. Ways to be served -/

/-- `e` is served by a question to `h`, or by a range that `h` opened and that is read from `files`. -/
inductive Serves (h : History τ) (files : Files) : Entry → Prop where
  | byStateRoot {root : Root} {e : Entry} (he : Chain.byStateRoot h root = .ok e) : Serves h files e
  | byBlockRoot {root : Root} {e : Entry} (he : Chain.byBlockRoot h root = .ok e) : Serves h files e
  | byPosition {p : Position} {e : Entry} (he : Chain.byPosition h p = .ok e) : Serves h files e
  | closest {root : Root} {slot : UInt64} {e : Entry} (he : Chain.closest h root slot = .ok e) :
      Serves h files e
  | bySlot {slot : UInt64} {e : Entry} (he : Chain.bySlot h slot = .ok e) : Serves h files e
  | towards {ctx : Context} {root : Root} {slot : UInt64} {a : Query.Arrival}
      (ha : Query.towards h ctx root slot = .ok a) : Serves h files a.entry
  | span {span : Span} {slot : UInt64} {e : Entry} (hspan : Chain.span h = .ok span)
      (he : span.entry files slot = .ok e) : Serves h files e

theorem span_of_open (hot : h.frontier.poisoned = false) (cold : h.ledger.poisoned = false) :
    Chain.span h = .ok (.joined (.filed h.ledger.start h.ledger.next)
      (.entries (h.frontier.tree.anchor.slot + 1) h.frontier.tree.canonicalBranch)) := by
  show (do
    let hot ← spanOf .hot (Chain.span h.frontier)
    let cold ← spanOf .cold (Chain.span h.ledger)
    return Span.joined cold hot) = _
  rw [Frontier.span_of_open hot, Ledger.span_of_open cold]
  rfl

theorem Sound.span_eq (hs : h.Sound taken first) :
    Chain.span h = .ok (.joined (.filed h.ledger.start h.ledger.next)
      (.entries (h.frontier.tree.anchor.slot + 1) h.frontier.tree.canonicalBranch)) :=
  span_of_open hs.opened hs.ledger.opened

/-! ## 3. Faithful service -/

/-- `blocks` reproduce `e`: from the moment after `calls` on it is read of `state`, which the first anchor
becomes when they are applied. -/
structure Reproduces (h : History τ) (anchor : Snapshot) (calls : List Call) (blocks : List Block)
    (state : State) (e : Entry) : Prop where
  replays : Replays (· ∈ accepted calls h) anchor.spec anchor.state blocks state
  summary : e.summary = .ofState state
  reads : ∀ later, CollisionFree (anchor.state.hashed ++ hashed (calls ++ later) h) →
    e.Reads (Chain.files (play (calls ++ later) h)) state

theorem Reproduces.append (h' : h.Reproduces anchor calls blocks state e) (later : List Call) :
    h.Reproduces anchor (calls ++ later) blocks state e := by
  refine ⟨h'.replays.mono fun b hb => ?_, h'.summary, fun more hK => ?_⟩
  · rw [accepted_append]
    exact List.mem_append_left _ hb
  · rw [List.append_assoc] at hK ⊢
    exact h'.reads (later ++ more) hK

-- Slots left after a reproduced entry make another one.
theorem Reproduces.advance (h' : h.Reproduces anchor calls blocks state e) (hstate : state.Sealable)
    {ctx : Context} {n : Nat} (hleave : Query.leaveSlots ctx anchor.spec n state = .ok t) :
    h.Reproduces anchor calls blocks t (.advanced (.ofState anchor.spec t)) :=
  ⟨h'.replays.leaveSlots hstate hleave, rfl, fun _ _ => Entry.reads_advanced _ _⟩

-- The entry of a block has the summary of the last block that was applied.
theorem Reproduces.block (h' : h.Reproduces anchor calls blocks state e) (hanchor : anchor.state.Aged)
    (hblock : e.summary.isEmpty = false) (hother : e.summary ≠ anchor.summary) :
    ∃ b, blocks.getLast? = some b ∧ e.summary = .ofBlock b := by
  rw [h'.summary] at hblock hother ⊢
  refine (h'.replays.summary_eq hanchor hblock).resolve_left ?_
  rintro rfl
  exact hother anchor.summary_eq.symm

section

variable (hmemory : Archive.InMemory tables) {specs : Spec → Prop} (hanchor : anchor.state.Reached specs)
  {archive : τ} (hempty : tables archive = .empty) (hstart : start anchor anchor.spec archive = .ok h)

include hmemory hanchor hempty hstart

theorem reproduces_of_holds (hK : CollisionFree (anchor.state.hashed ++ hashed calls h))
    (he : (play calls h).Holds e) :
    ∃ state blocks, h.Reproduces anchor calls blocks state e ∧ state.Sealable ∧ e.spec = anchor.spec := by
  obtain ⟨hf, -, -⟩ :=
    faithful_of_start hmemory hanchor hempty hstart calls [] (by rwa [List.append_nil])
  rw [List.append_nil] at hf
  obtain ⟨state, hgenuine, hsummary, hspec, -⟩ := hf.exists_reads hmemory hf (fun _ => id) he
  obtain ⟨blocks, hreplays⟩ := hgenuine.replayed
  refine ⟨state, blocks, ⟨hreplays, hsummary, fun later hK' => ?_⟩, ?_, hspec⟩
  · obtain ⟨hf, hf', hrecords⟩ := faithful_of_start hmemory hanchor hempty hstart calls later hK'
    obtain ⟨state', hgenuine', hsummary', -, hreads⟩ := hf.exists_reads hmemory hf' hrecords.subset he
    -- Both moments know the hashes of their state, so the root of the summary tells them equal.
    have hroot : state.root = state'.root :=
      congrArg Summary.stateRoot (hsummary.symm.trans hsummary')
    have hknown : ∀ x ∈ state.hashed, x ∈ anchor.state.hashed ++ hashed (calls ++ later) h := by
      intro x hx
      rw [hashed_append, ← List.append_assoc]
      exact List.mem_append_left _ (hgenuine.known x hx)
    rw [hK'.state_eq hknown hgenuine'.known hroot]
    exact hreads
  · exact State.sealable_of_root (hK.root_ne_zero hgenuine.known)

theorem reproduces_of_serves (hK : CollisionFree (anchor.state.hashed ++ hashed (calls ++ later) h))
    (he : (play calls h).Serves (Chain.files (play (calls ++ later) h)) e) :
    ∃ state blocks, h.Reproduces anchor (calls ++ later) blocks state e := by
  have hKcalls : CollisionFree (anchor.state.hashed ++ hashed calls h) := by
    rw [hashed_append, ← List.append_assoc] at hK
    exact hK.left
  have hs := sound_of_start hmemory.steady hanchor hstart calls hKcalls.right
  have hd := distinct_of_start hanchor hstart calls hKcalls.right
  have hs' := sound_of_start hmemory.steady hanchor hstart (calls ++ later) hK.right
  obtain ⟨hf, -, -⟩ :=
    faithful_of_start hmemory hanchor hempty hstart calls [] (by rwa [List.append_nil])
  rw [List.append_nil] at hf
  have hheld {e : Entry} (he : (play calls h).Holds e) :
      ∃ state blocks, h.Reproduces anchor (calls ++ later) blocks state e := by
    obtain ⟨state, blocks, hreproduces, -⟩ :=
      reproduces_of_holds hmemory hanchor hempty hstart hKcalls he
    exact ⟨state, blocks, hreproduces.append later⟩
  cases he with
  | byStateRoot he => exact hheld ((hf.traced.byStateRoot_eq_ok_iff hKcalls hs).1 he).1
  | byBlockRoot he => exact hheld ((hs.byBlockRoot_eq_ok_iff hd).1 he).held
  | byPosition he => exact hheld (hs.byPosition_eq_ok_iff.1 he).1
  | closest he => exact hheld ((hs.closest_eq_ok_iff hd).1 he).held
  | bySlot he => exact hheld (hs.bySlot_eq_ok_iff.1 he).1
  | towards ha =>
    obtain ⟨start, hclosest, hadvance⟩ := Query.towards_eq_ok ha
    have hstartHeld := ((hs.closest_eq_ok_iff hd).1 hclosest).held
    obtain ⟨state, blocks, hreproduces, hsealable, hspec⟩ :=
      reproduces_of_holds hmemory hanchor hempty hstart hKcalls hstartHeld
    rw [show Chain.spec (play calls h) = anchor.spec from hf.constants] at hadvance
    rcases Query.advance_eq_ok hadvance with heq | ⟨s, n, t, hread, hleave, heq⟩
    · rw [heq]
      exact ⟨state, blocks, hreproduces.append later⟩
    · -- The slots are left from the state that is read of the closest entry.
      have hreads := hreproduces.reads [] (by rwa [List.append_nil])
      rw [List.append_nil] at hreads
      have hsame : s = state := (hreads.state _).eq_of_outcome (Memo.of_empty _ _) hread
      rw [heq]
      exact ⟨t, blocks, (hreproduces.advance hsealable (hsame ▸ hleave)).append later⟩
  | span hspan he =>
    rw [hs.span_eq] at hspan
    cases hspan
    rcases Span.entry_cases he with hfiled | ⟨x, hx, rfl⟩
    · -- The files have the records of the moment when the range is read.
      obtain ⟨r, hr, -, rfl⟩ := hs'.ledger.bySlot_eq_ok_iff.1 hfiled
      obtain ⟨state, blocks, hreproduces, -⟩ :=
        reproduces_of_holds hmemory hanchor hempty hstart hK (.filed hr)
      exact ⟨state, blocks, hreproduces⟩
    · exact hheld (.node (ForkTree.unfinalized_of_mem_canonicalBranch hx))

end

/-- In any run of calls on a history that files its states in memory: every entry that a lookup serves, or
that a range serves some calls after it was opened, is read from then on of one state.  Applying the blocks
of its branch to the first anchor one after the other, and leaving the empty slots after the last of them,
gives that state; the summary is that of the state, and the entry of a block that is not the first anchor
has the summary of its block. -/
theorem reproduced_of_served {specs : Spec → Prop} (hanchor : anchor.state.Reached specs)
    {h : History Archive.Tables} (hstart : start anchor anchor.spec Archive.Tables.empty = .ok h)
    (calls later : List Call)
    (hK : CollisionFree (anchor.state.hashed ++ hashed (calls ++ later) h)) (e : Entry)
    (he : (play calls h).Serves (Chain.files (play (calls ++ later) h)) e) :
    ∃ state blocks, h.Reproduces anchor (calls ++ later) blocks state e ∧
      (e.summary.isEmpty = false → e.summary ≠ anchor.summary →
        ∃ b, blocks.getLast? = some b ∧ e.summary = .ofBlock b) := by
  obtain ⟨state, blocks, hreproduces⟩ :=
    reproduces_of_serves Archive.inMemory_tables hanchor rfl hstart hK he
  exact ⟨state, blocks, hreproduces, hreproduces.block hanchor.aged⟩

-- The block of the small history, fetched after it was finalized.
theorem reproduced_of_served_tiny :
    CollisionFree (tinyAnchor.state.hashed ++ hashed tinyRun tinyHistory) ∧
      ∃ e, Chain.byBlockRoot (play tinyRun tinyHistory) tinyBlock.root = .ok e ∧
        ∃ state blocks, tinyHistory.Reproduces tinyAnchor tinyRun blocks state e ∧
          ∃ b, blocks.getLast? = some b ∧ e.summary = .ofBlock b := by
  have hK : CollisionFree (tinyAnchor.state.hashed ++ hashed tinyRun tinyHistory) :=
    collisionFree_tiny.mono fun x hx => (List.mem_append.1 hx).elim (mem_hashed_of_start start_tiny _ _ x) id
  obtain ⟨-, -, -, -, -, -, hserved, hother⟩ := evaluated_tiny
  obtain ⟨e, hanswer, hsummary⟩ := Entry.exists_of_toOption hserved
  obtain ⟨state, blocks, hreproduces, hblock⟩ :=
    reproduced_of_served Frontier.reached_tiny start_tiny tinyRun [] hK e
    (.byBlockRoot hanswer)
  refine ⟨hK, e, hanswer, state, blocks, hreproduces, hblock ?_ ?_⟩
  · rw [hsummary]
    rfl
  · rw [hsummary]
    exact hother

end History

end BeaconHistory
