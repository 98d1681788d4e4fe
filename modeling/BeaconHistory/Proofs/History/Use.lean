import BeaconHistory.Proofs.Frontier.Derived
import BeaconHistory.Proofs.Frontier.Replayed
import BeaconHistory.Proofs.Frontier.Watched
import BeaconHistory.Proofs.History.Run
import BeaconHistory.Proofs.Ledger.Placed

/-!
# History.Use — a ledger that is written to as well

Besides the calls of a history, its ledger can be told to ingest any entry at all, and then need not end
at the anchor any more.  Main statement: whatever is ingested, the frontier is changed by its calls alone,
its tree stays sound, and both regions keep the constants of the history.
-/

namespace BeaconHistory

variable {τ : Type} {spec own : Spec}

/-! ## 1. Constants -/

namespace Ledger

/-- An open ledger whose entries are read with `spec`. -/
structure Stands (spec : Spec) (l : Ledger τ) : Prop where
  opened : l.poisoned = false
  constants : l.spec = spec

section

variable [Archive τ]

-- The ledger once it has been told to ingest an entry, whether it refuses it or not.
def told (entry : Snapshot) (l : Ledger τ) : Ledger τ := (ingest entry).after l

theorem Stands.told {l : Ledger τ} (hsteady : Archive.Steady τ) (hl : l.Stands spec) (entry : Snapshot) :
    (l.told entry).Stands spec := by
  rw [Ledger.told, Operation.after_eq]
  cases hlink : l.checkLink entry.summary with
  | error e =>
    rw [ingest_of_checkLink_error hl.opened hlink]
    exact hl
  | ok _ =>
    rw [ingest_eq hl.opened hlink]
    have hput := hsteady entry.position entry.summary.stateRoot entry.state l.archive
    cases hresult : Archive.put entry.position entry.summary.stateRoot entry.state l.archive with
    | ok _ archive => exact ⟨hl.opened, hl.constants⟩
    | error e archive =>
      cases e with
      | refused e => exact ⟨hl.opened, hl.constants⟩
      | broke fault => exact absurd hresult (hput fault archive)

end

end Ledger

namespace History

variable {h : History τ}

/-- What holds of a history whatever its ledger ingests, if the anchor that it started from is read with
`own`. -/
structure Stands (spec own : Spec) (h : History τ) : Prop where
  opened : h.frontier.poisoned = false
  tree : h.frontier.tree.Sound
  constants : h.frontier.tree.spec = spec
  derived : h.frontier.tree.Derived fun _ => True
  entries : ∀ (p : Position) (node : ForkTree.Node), h.frontier.tree.nodes[p]? = some node →
    node.entry.spec = spec ∨ node.entry.spec = own
  ledger : h.ledger.Stands spec

variable [Archive τ]

theorem stands_start {anchor : Snapshot} {archive : τ} {specs : Spec → Prop}
    (hanchor : anchor.state.Reached specs) (hstart : start anchor spec archive = .ok h) :
    h.Stands spec anchor.spec := by
  obtain ⟨-, archive', -, rfl⟩ := start_eq_ok_iff.1 hstart
  refine ⟨rfl, ForkTree.sound_plant spec hanchor.aged, rfl, ForkTree.derived_plant _ spec anchor,
    fun p node hnode => ?_, ⟨rfl, rfl⟩⟩
  obtain ⟨-, rfl⟩ := ForkTree.nodes_plant_iff.1 hnode
  exact Or.inr rfl

theorem Stands.move (hsteady : Archive.Steady τ) (hspec : spec.validate = .ok ())
    (hs : h.Stands spec own) {taken : Block → Prop} {u : ForkTree} {g : Frontier (Ledger τ)}
    (hmove : Frontier.Move taken h.frontier u g) : (⟨g⟩ : History τ).Stands spec own := by
  have hmove : Frontier.Move (fun _ => True) h.frontier u g := hmove.mono fun _ _ => trivial
  have hvalid : h.frontier.tree.spec.validate = .ok () := by rw [hs.constants, hspec]
  have hopen := hmove.opened (Ledger.sink_steady hsteady) hvalid hs.opened
  refine ⟨hopen, hmove.sound hs.tree, hmove.spec.trans hs.constants, hmove.derived hs.tree hs.derived,
    fun p node hnode => ?_, ?_⟩
  · -- An entry that the tree grew is read with its constants; the anchor is the one there was.
    refine hmove.forall_entry (fun e => e.spec = spec ∨ e.spec = own) hs.tree
      (fun t hsteps p node hnode => ?_) hnode
    by_cases hne : p = t.anchor
    · obtain ⟨anchor, hanchor⟩ := hs.tree.anchor_node
      have hkept := hsteps.nodes hs.tree hanchor
      rw [← hsteps.anchor, ← hne, hnode] at hkept
      cases hkept
      exact hs.entries _ _ hanchor
    · obtain ⟨hread, -⟩ := hsteps.derived hs.tree hs.derived p node hnode hne
      exact Or.inl (hread.trans (hsteps.spec.trans hs.constants))
  · show g.sink.Stands spec
    cases hmove with
    | grow _ _ hsink => exact hsink ▸ hs.ledger
    | settle _ _ _ hsink =>
      rw [hsink, Ledger.pruneAll_eq]
      refine Frontier.handOver_keeps (fun entry _ l hl => ?_) hs.ledger
      rw [Ledger.left_offer]
      exact hl.told hsteady entry
    | broke _ _ hpoisoned =>
      rw [hopen] at hpoisoned
      cases hpoisoned

/-! ## 2. Uses -/

/-- What is done with a history: a call, or an entry that its ledger is told to ingest. -/
inductive Use where
  | call (c : Call)
  | ingest (entry : Snapshot)

namespace Use

def after : Use → History τ → History τ
  | call c, h => c.after h
  | ingest entry, h => (onLedger (Ledger.ingest entry)).after h

def outcome : Use → History τ → Outcome Query.Error Unit
  | call c, h => c.outcome h
  | ingest entry, h => (onLedger (Ledger.ingest entry)).outcome h

-- The entry that is ingested was hashed when it was made.
def hashed : Use → History τ → List (List UInt8)
  | call c, h => c.toHot.hashed h.frontier
  | ingest _, _ => []

/-- What a use does to the frontier, if `tell` is what ingesting does to its sink. -/
def onto {σ : Type} [Frontier.Sink σ] (tell : Snapshot → σ → σ) : Use → Frontier σ → Frontier σ
  | call c, f => c.toHot.after f
  | ingest entry, f => f.mapSink (tell entry)

theorem frontier_after (u : Use) (h : History τ) :
    (u.after h).frontier = u.onto Ledger.told h.frontier := by
  cases u with
  | call c => exact c.frontier_after h
  | ingest entry =>
    show ((onLedger (Ledger.ingest entry)).after h).frontier =
      h.frontier.mapSink (Ledger.told entry)
    rw [Operation.after_eq]
    unfold onLedger Frontier.mapSink Ledger.told
    rw [Operation.after_eq, show h.frontier.sink = h.ledger from rfl]
    cases Ledger.ingest entry h.ledger <;> rfl

-- An entry that does not link to the last record changes nothing.
theorem after_ingest_of_error {entry : Snapshot} {e : Ledger.Error} (hopen : h.ledger.poisoned = false)
    (hlink : h.ledger.checkLink entry.summary = .error e) : (ingest entry).after h = h := by
  show (onLedger (Ledger.ingest entry)).after h = h
  rw [Operation.after_eq]
  unfold onLedger
  rw [Ledger.ingest_of_checkLink_error hopen hlink]
  rfl

end Use

def perform (uses : List Use) (h : History τ) : History τ := uses.foldl (fun h u => u.after h) h

theorem perform_calls (calls : List Call) (h : History τ) :
    perform (calls.map Use.call) h = play calls h := List.foldl_map

/-- The strings hashed while a history is used. -/
def hashedBy : List Use → History τ → List (List UInt8)
  | [], _ => []
  | u :: uses, h => u.hashed h ++ hashedBy uses (u.after h)

theorem hashedBy_ingest (entry : Snapshot) (uses : List Use) (h : History τ) :
    hashedBy (.ingest entry :: uses) h = hashedBy uses ((Use.ingest entry).after h) := rfl

theorem hashedBy_calls (calls : List Call) (h : History τ) :
    hashedBy (calls.map Use.call) h = hashed calls h := by
  induction calls generalizing h with
  | nil => rfl
  | cons c calls ih =>
    rw [hashed_cons, ← ih]
    rfl

theorem frontier_perform (uses : List Use) (h : History τ) :
    (perform uses h).frontier =
      uses.foldl (fun f u => u.onto Ledger.told f) h.frontier := by
  induction uses generalizing h with
  | nil => rfl
  | cons u uses ih =>
    show (perform uses (u.after h)).frontier = _
    rw [ih, u.frontier_after]
    rfl

theorem Use.stands (hsteady : Archive.Steady τ) (hspec : spec.validate = .ok ()) (u : Use)
    (hK : CollisionFree (u.hashed h)) (hs : h.Stands spec own) : (u.after h).Stands spec own := by
  have hafter : u.after h = ⟨u.onto Ledger.told h.frontier⟩ :=
    congrArg History.mk (u.frontier_after h)
  rw [hafter]
  cases u with
  | call c => exact hs.move hsteady hspec (c.toHot.move hs.tree hK)
  | ingest entry =>
    exact ⟨hs.opened, hs.tree, hs.constants, hs.derived, hs.entries, hs.ledger.told hsteady entry⟩

/-- However a history is used, it stands by its constants. -/
theorem Stands.perform (hsteady : Archive.Steady τ) (hspec : spec.validate = .ok ()) (uses : List Use)
    (hK : CollisionFree (hashedBy uses h)) (hs : h.Stands spec own) : (perform uses h).Stands spec own := by
  induction uses generalizing h with
  | nil => exact hs
  | cons u uses ih => exact ih hK.right (u.stands hsteady hspec hK.left hs)

/-! ## 3. Under watch -/

open Frontier (Watched)

-- An entry that a ledger under watch is told to ingest is not noted.
def toldWatched (entry : Snapshot) (w : Watched (Ledger τ)) : Watched (Ledger τ) :=
  { w with sink := w.sink.told entry }

/-- The frontier of a history that is used, with notes of what it finalized and pruned. -/
def watch (uses : List Use) (h : History τ) : Frontier (Watched (Ledger τ)) :=
  uses.foldl (fun f u => u.onto toldWatched f) h.frontier.watched

theorem watch_calls (calls : List Call) (h : History τ) :
    watch (calls.map Use.call) h = Frontier.play (calls.map Call.toHot) h.frontier.watched := by
  unfold watch Frontier.play
  rw [List.foldl_map, List.foldl_map]
  rfl

/-- The watch changes nothing. -/
theorem unwatched_watch (uses : List Use) (h : History τ) :
    (watch uses h).unwatched = (perform uses h).frontier := by
  have hstep (u : Use) (f : Frontier (Watched (Ledger τ))) :
      (u.onto toldWatched f).unwatched = u.onto Ledger.told f.unwatched := by
    cases u with
    | call c => exact c.toHot.unwatched_after f
    | ingest entry => rfl
  have hfold (f : Frontier (Watched (Ledger τ))) :
      (uses.foldl (fun f u => u.onto toldWatched f) f).unwatched =
        uses.foldl (fun f u => u.onto Ledger.told f) f.unwatched := by
    induction uses generalizing f with
    | nil => rfl
    | cons u uses ih => rw [List.foldl_cons, List.foldl_cons, ih, hstep]
  rw [frontier_perform]
  exact hfold h.frontier.watched

-- A watch that began at the records `base` has noted what was recorded since.
def Noted (base : List Summary) (w : Watched (Ledger τ)) : Prop :=
  w.sink.records.toList = base ++ w.accepted.map Snapshot.summary

theorem Noted.offer {base : List Summary} {w : Watched (Ledger τ)} (hw : Noted base w) (entry : Snapshot) :
    Noted base (Operation.left (Frontier.Sink.offer entry w)) := by
  have hrecords := Ledger.records_of_ingest entry w.sink
  simp only [Frontier.Sink.offer, Watched.offer]
  cases hingest : Ledger.ingest entry w.sink with
  | ok _ l =>
    rw [hingest] at hrecords
    show l.records.toList = base ++ (w.accepted ++ [entry]).map Snapshot.summary
    rw [hrecords, hw, List.map_append, List.append_assoc]
    rfl
  | error e l =>
    rw [hingest] at hrecords
    exact (congrArg Array.toList hrecords).trans hw

/-- What a ledger has recorded since a watch began is what was noted as taken. -/
theorem noted_watch (calls : List Call) (h : History τ) :
    Noted h.ledger.records.toList (watch (calls.map Use.call) h).sink := by
  rw [watch_calls]
  exact Frontier.keeps_sink_play (fun entry _ hw => hw.offer entry) (fun _ _ hw => hw) _
    (List.append_nil _).symm

end History

end BeaconHistory
