import BeaconHistory.History
import BeaconHistory.Proofs.Frontier.Reading
import BeaconHistory.Proofs.Frontier.Run
import BeaconHistory.Proofs.Ledger.Tables

/-!
# History.Run — any calls on the whole chain

A history is changed through its frontier, or through the finalizations of its own, which do what those
of the frontier do once the ledger agrees.  Main statement: after any run of calls the frontier grows
from the last record of the ledger, and the records of the run begin with those before it.
-/

namespace BeaconHistory

/-! ## 1. Records and branches -/

namespace ForkTree

variable {t : ForkTree} {accepted : Block → Prop}

theorem Branch.chronicle (ht : t.Sound) (hbacked : t.Backed accepted) {first : Summary}
    {log : List Summary} {anchor : Snapshot} (hanchor : t.nodes[t.anchor]? = some ⟨anchor, none⟩)
    (hlog : Chronicle accepted first log anchor.summary) {path : List Snapshot} {p : Position}
    (hpath : t.Branch path p) :
    ∃ node, t.nodes[p]? = some node ∧
      Chronicle accepted first (log ++ path.map Snapshot.summary) node.entry.summary := by
  induction hpath with
  | anchor =>
    rw [List.map_nil, List.append_nil]
    exact ⟨_, hanchor, hlog⟩
  | @child path p q node _ hnode hne hparent ih =>
    obtain ⟨before, hbefore, hchronicle⟩ := ih
    have hfollows := ht.follows hnode hparent
    have hslot : before.entry.summary.slot = q.slot := congrArg Position.slot (ht.stored q before hbefore)
    have hroot : before.entry.summary.blockRoot = q.root :=
      congrArg Position.root (ht.stored q before hbefore)
    have hslot' : node.entry.summary.slot = p.slot := congrArg Position.slot (ht.stored p node hnode)
    refine ⟨node, hnode, ?_⟩
    rw [List.map_append, ← List.append_assoc]
    refine .next hchronicle ⟨?_, ?_⟩ (hbacked p node hnode hne)
    · rw [hslot, hslot']
      exact hfollows.slot
    · rw [hroot]
      exact hfollows.root.symm

theorem Backed.reanchor (ht : t.Sound) {a : Position} (ha : a ∈ t.nodes) (hslot : t.anchor.slot < a.slot)
    (h : t.Backed accepted) : (t.reanchor a).1.Backed accepted := by
  intro p node hnode hne
  obtain ⟨old, hold, hdescends, rfl⟩ := (nodes_reanchor_iff ht ha).1 hnode
  rw [Node.entry_asKept]
  apply h p old hold
  rintro rfl
  have hp : t.anchor ∈ t.nodes := Lookup.mem_of_eq_some hold
  exact UInt64.lt_irrefl _ (UInt64.lt_trans hslot (ht.slot_lt_of_descends hp hdescends hne))

end ForkTree

namespace Ledger

variable {τ : Type} [Archive τ]

theorem pruneAll_eq (pruned : List Snapshot) (l : Ledger τ) : Frontier.pruneAll pruned l = l := by
  induction pruned with
  | nil => rfl
  | cons entry pruned ih => exact ih

theorem ingest_steady (hsteady : Archive.Steady τ) (entry : Snapshot) (l : Ledger τ) :
    (ingest entry).Steady l := by
  intro fault l' h
  have hput := hsteady entry.position entry.summary.stateRoot entry.state l.archive
  unfold ingest at h
  split at h
  · cases h
  split at h
  · cases h
  split at h
  · cases h
  · cases h
  · next hbroke => exact absurd hbroke (hput _ _)

theorem sink_steady (hsteady : Archive.Steady τ) : Frontier.Sink.Steady (Ledger τ) := by
  intro entry l fault l' h
  simp only [Frontier.Sink.offer] at h
  cases hingest : ingest entry l with
  | ok _ l' =>
    rw [hingest] at h
    cases h
  | error e l' =>
    rw [hingest] at h
    cases e with
    | refused e => cases h
    | broke fault' => exact ingest_steady hsteady entry l fault' l' hingest

end Ledger

namespace History

variable {τ : Type} {h : History τ} {taken : Block → Prop} {first : Summary}

/-! ## 2. The invariant -/

/-- The invariant of histories whose ledger starts with `first`. -/
structure Sound (taken : Block → Prop) (first : Summary) (h : History τ) : Prop where
  opened : h.frontier.poisoned = false
  spec : h.frontier.tree.spec.validate = .ok ()
  tree : h.frontier.tree.Sound
  backed : h.frontier.tree.Backed taken
  ledger : h.ledger.Keeps taken first
  -- The anchor is the last record.
  joined : ∃ entry, h.frontier.tree.nodes[h.frontier.tree.anchor]? = some ⟨entry, none⟩ ∧
    Chronicle taken first h.ledger.records.toList entry.summary

theorem Sound.exists_last (hs : h.Sound taken first) :
    ∃ last, Chronicle taken first h.ledger.records.toList last ∧
      last.position = h.frontier.tree.anchor := by
  obtain ⟨entry, hentry, hlog⟩ := hs.joined
  exact ⟨entry.summary, hlog, hs.tree.stored _ _ hentry⟩

variable [Archive τ]

def firstLedger (anchor : Snapshot) (spec : Spec) (archive : τ) : Ledger τ :=
  Ledger.append { Ledger.empty anchor.summary.slot spec archive with archive := archive } anchor.summary

-- A history starts if the constants can divide and the archive files the state of the anchor.
theorem start_eq_ok_iff {anchor : Snapshot} {spec : Spec} {archive : τ} :
    start anchor spec archive = .ok h ↔ spec.validate = .ok () ∧ ∃ archive',
      Archive.put anchor.position anchor.summary.stateRoot anchor.state archive = .ok () archive' ∧
        h = ⟨.plant anchor (firstLedger anchor spec archive') spec⟩ := by
  have hlink : (Ledger.empty anchor.summary.slot spec archive).checkLink anchor.summary = .ok () := by
    unfold Ledger.checkLink
    rw [if_neg]
    · rfl
    · exact fun hne => hne (UInt64.add_zero _).symm
  unfold start
  rw [Outcome.bind_eq_ok_iff]
  cases spec.validate with
  | error e => exact ⟨fun ⟨_, h, _⟩ => (by cases h), fun ⟨h, _⟩ => (by cases h)⟩
  | ok _ =>
    unfold Operation.reach EStateM.run Ledger.ingest
    rw [hlink]
    dsimp only [Ledger.empty, Bool.false_eq_true, if_false]
    cases Archive.put anchor.position anchor.summary.stateRoot anchor.state archive with
    | ok _ archive' =>
      constructor
      · rintro ⟨_, -, h⟩
        cases h
        exact ⟨rfl, archive', rfl, rfl⟩
      · rintro ⟨-, _, heq, rfl⟩
        cases heq
        exact ⟨(), rfl, rfl⟩
    | error e archive' =>
      constructor
      · rintro ⟨_, -, h⟩
        cases e <;> cases h
      · rintro ⟨-, _, heq, -⟩
        cases heq

theorem sound_start {anchor : Snapshot} {spec : Spec} {archive : τ} {specs : Spec → Prop}
    (hanchor : anchor.state.Reached specs) (hstart : start anchor spec archive = .ok h)
    (taken : Block → Prop) : h.Sound taken anchor.summary := by
  obtain ⟨hspec, archive', -, rfl⟩ := start_eq_ok_iff.1 hstart
  have hrecords : (firstLedger anchor spec archive').records.toList = [anchor.summary] := rfl
  have htree := ForkTree.sound_plant spec hanchor.aged
  refine ⟨rfl, hspec, htree, ?_, ⟨rfl, rfl, ?_, ?_⟩, ?_⟩
  · intro p node hnode hne
    exact absurd (ForkTree.nodes_plant_iff.1 hnode).1.symm hne
  · exact ⟨anchor.summary, hrecords ▸ .start⟩
  · intro root
    show (firstLedger anchor spec archive').blocks[root]? = _
    rw [show (ledger ⟨.plant anchor (firstLedger anchor spec archive') spec⟩).records.toList = _ from
      hrecords]
    show ((∅ : Std.ExtTreeMap Root UInt64).insertIfNew anchor.summary.blockRoot
      anchor.summary.slot)[root]? = _
    rw [Lookup.getElem?_insertIfNew]
    by_cases hroot : anchor.summary.blockRoot = root <;> simp [hroot]
  · exact ⟨anchor, ForkTree.nodes_plant_iff.2 ⟨rfl, rfl⟩, hrecords ▸ .start⟩

/-! ## 3. Calls -/

-- The calls that change a history: those of its frontier, and finalizations of its own.
inductive Call where
  | hot (c : Frontier.Call)
  | finalize (target : Position)
  | finalizeCheckpoint (c : Checkpoint)
deriving DecidableEq

namespace Call

def toHot : Call → Frontier.Call
  | hot c => c
  | finalize target => .finalize target
  | finalizeCheckpoint c => .finalizeCheckpoint c

def after : Call → History τ → History τ
  | hot c, h => ⟨c.after h.frontier⟩
  | finalize target, h => (History.finalize target).after h
  | finalizeCheckpoint c, h => (History.finalizeCheckpoint c).after h

def outcome : Call → History τ → Outcome Query.Error Unit
  | hot c, h => (c.outcome h.frontier).mapReason .frontier
  | finalize target, h => Outcome.done ((History.finalize target).outcome h)
  | finalizeCheckpoint c, h => Outcome.done ((History.finalizeCheckpoint c).outcome h)

end Call

def play (calls : List Call) (h : History τ) : History τ := calls.foldl (fun h c => c.after h) h

def accepted (calls : List Call) (h : History τ) : List Block :=
  Frontier.accepted (calls.map Call.toHot) h.frontier

/-- The strings hashed in a run, those of the frontier. -/
def hashed (calls : List Call) (h : History τ) : List (List UInt8) :=
  Frontier.hashed (calls.map Call.toHot) h.frontier

/-- A finalization of the frontier that the ledger has to agree with. -/
def checked (target : Position) (change : Frontier.Change (Ledger τ) Nat) : Change τ Nat := fun h =>
  match h.agrees target with
  | .error e => .error (.refused e) h
  | .ok _ => onFrontier change h

theorem finalize_eq (target : Position) (h : History τ) :
    finalize target h = checked target (Frontier.finalize target) h := by
  unfold finalize Operation.ofOutcome checked
  simp only [bind, EStateM.bind]
  cases h.agrees target <;> rfl

theorem finalizeCheckpoint_eq (c : Checkpoint) (h : History τ) :
    finalizeCheckpoint c h =
      checked (Frontier.checkpointPosition h.spec c) (Frontier.finalizeCheckpoint c) h := by
  unfold finalizeCheckpoint Operation.ofOutcome checked
  simp only [bind, EStateM.bind]
  cases h.agrees (Frontier.checkpointPosition h.spec c) <;> rfl

omit [Archive τ] in
theorem frontier_left_onFrontier {α : Type} (change : Frontier.Change (Ledger τ) α) (h : History τ) :
    (Operation.left (onFrontier change h)).frontier = change.after h.frontier := by
  unfold onFrontier Operation.after EStateM.run
  cases change h.frontier <;> rfl

omit [Archive τ] in
theorem ok_of_checked {target : Position} {change : Frontier.Change (Ledger τ) Nat} {n : Nat}
    {h' : History τ} (heq : checked target change h = .ok n h') :
    h.agrees target = .ok () ∧ ∃ g, change h.frontier = .ok n g ∧ h' = ⟨g⟩ := by
  unfold checked at heq
  cases hagrees : h.agrees target with
  | error e =>
    rw [hagrees] at heq
    cases heq
  | ok _ =>
    rw [hagrees] at heq
    dsimp only [onFrontier] at heq
    cases hchange : change h.frontier with
    | ok n' g =>
      rw [hchange] at heq
      cases heq
      exact ⟨rfl, g, rfl, rfl⟩
    | error e g =>
      rw [hchange] at heq
      cases heq

omit [Archive τ] in
-- What is reported of the frontier is the word of the ledger or that of the frontier.
theorem refused_of_checked {target : Position} {change : Frontier.Change (Ledger τ) Nat}
    {h' : History τ} {e : Frontier.Error}
    (heq : checked target change h = .error (.refused (.frontier e)) h') :
    h.agrees target = .error (.frontier e) ∨
      Outcome.done (change.outcome h.frontier) = .error (.refused e) := by
  unfold checked at heq
  cases hagrees : h.agrees target with
  | error e' =>
    rw [hagrees] at heq
    cases heq
    exact Or.inl rfl
  | ok _ =>
    right
    rw [hagrees] at heq
    dsimp only [onFrontier] at heq
    unfold Operation.outcome EStateM.run
    cases hchange : change h.frontier with
    | ok n g =>
      rw [hchange] at heq
      cases heq
    | error e' g =>
      rw [hchange] at heq
      cases e' with
      | refused e' =>
        cases heq
        rfl
      | broke fault => cases heq

omit [Archive τ] in
-- The ledger is only asked about positions before the anchor.
theorem agrees_of_le (hopen : h.frontier.poisoned = false) {target : Position}
    (hslot : h.frontier.tree.anchor.slot ≤ target.slot) : h.agrees target = .ok () := by
  unfold agrees
  rw [Frontier.anchor_of_open hopen]
  show (if target.slot < h.frontier.tree.anchor.slot then _ else _) = _
  rw [if_neg (UInt64.not_lt.2 hslot)]
  rfl

omit [Archive τ] in
-- Before the anchor, a position has to be the one recorded for its slot, if any is.
theorem agrees_of_lt (hopen : h.frontier.poisoned = false) (hledger : h.ledger.poisoned = false)
    {target : Position} (hslot : target.slot < h.frontier.tree.anchor.slot) :
    h.agrees target =
      match h.ledger.record? target.slot with
      | none => .ok ()
      | some s =>
        if s.position = target then .ok ()
        else .error (.frontier (.conflictsWithFinalized target s.position)) := by
  unfold agrees
  rw [Frontier.anchor_of_open hopen, Ledger.bySlot_of_open hledger]
  show (if target.slot < h.frontier.tree.anchor.slot then _ else _) = _
  rw [if_pos hslot]
  cases h.ledger.record? target.slot with
  | none => rfl
  | some s => exact ite_not _ _ _

theorem finalizeAfter_before_anchor {f : Frontier (Ledger τ)} {target : Position}
    (growth : ForkTree.Growth Unit) (hopen : f.poisoned = false)
    (hslot : target.slot < f.tree.anchor.slot) :
    (Frontier.finalizeAfter growth target).after f = f := by
  rw [Operation.after_eq, Frontier.finalizeAfter_of_finalized growth hopen (Or.inl hslot)]
  rfl

omit [Archive τ] in
-- A finalization does to the frontier what that of the frontier does, if the latter changes nothing before
-- the anchor.
theorem frontier_left_checked (target : Position) (change : Frontier.Change (Ledger τ) Nat)
    (hstay : h.frontier.poisoned = true ∨ target.slot < h.frontier.tree.anchor.slot →
      change.after h.frontier = h.frontier) :
    (Operation.left (checked target change h)).frontier = change.after h.frontier := by
  unfold checked
  cases hagrees : h.agrees target with
  | ok _ => exact frontier_left_onFrontier change h
  | error e =>
    -- The ledger is asked about earlier positions only, where the frontier would change nothing.
    refine (hstay ?_).symm
    cases hopen : h.frontier.poisoned with
    | true => exact Or.inl rfl
    | false =>
      by_cases hslot : target.slot < h.frontier.tree.anchor.slot
      · exact Or.inr hslot
      · rw [agrees_of_le hopen (UInt64.not_lt.1 hslot)] at hagrees
        cases hagrees

/-- A call does to the frontier what the call of the frontier does: the history refuses only where the
frontier would change nothing. -/
theorem Call.frontier_after (c : Call) (h : History τ) :
    (c.after h).frontier = c.toHot.after h.frontier := by
  cases c with
  | hot c => rfl
  | finalize target =>
    show ((History.finalize target).after h).frontier = (Frontier.finalize target).after h.frontier
    rw [Operation.after_eq, finalize_eq]
    apply frontier_left_checked target _
    cases hopen : h.frontier.poisoned with
    | true => exact fun _ => Frontier.Call.after_of_poisoned (.finalize target) hopen
    | false =>
      intro hslot
      exact finalizeAfter_before_anchor _ hopen (hslot.resolve_left (by decide))
  | finalizeCheckpoint c =>
    show ((History.finalizeCheckpoint c).after h).frontier =
      (Frontier.finalizeCheckpoint c).after h.frontier
    rw [Operation.after_eq, finalizeCheckpoint_eq]
    apply frontier_left_checked (Frontier.checkpointPosition h.spec c) _
    cases hopen : h.frontier.poisoned with
    | true => exact fun _ => Frontier.Call.after_of_poisoned (.finalizeCheckpoint c) hopen
    | false =>
      intro hslot
      rw [Operation.after_eq, Frontier.finalizeCheckpoint_eq, ← Operation.after_eq]
      exact finalizeAfter_before_anchor _ hopen (hslot.resolve_left (by decide))

theorem frontier_play (calls : List Call) (h : History τ) :
    (play calls h).frontier = Frontier.play (calls.map Call.toHot) h.frontier := by
  induction calls generalizing h with
  | nil => rfl
  | cons c calls ih =>
    show (play calls (c.after h)).frontier = Frontier.play _ (c.toHot.after h.frontier)
    rw [ih, c.frontier_after]

/-! ## 4. Runs -/

omit [Archive τ] in
theorem Sound.grow (hs : h.Sound taken first) {g : Frontier (Ledger τ)}
    (hsteps : ForkTree.Steps taken h.frontier.tree g.tree) (hsink : g.sink = h.ledger)
    (hopen : g.poisoned = false) : (⟨g⟩ : History τ).Sound taken first := by
  obtain ⟨entry, hentry, hlog⟩ := hs.joined
  have hkeeps : g.sink.Keeps taken first := hsink ▸ hs.ledger
  refine ⟨hopen, ?_, hsteps.sound hs.tree, hsteps.backed hs.tree hs.backed, hkeeps, entry, ?_, ?_⟩
  · show g.tree.spec.validate = .ok ()
    rw [hsteps.spec]
    exact hs.spec
  · show g.tree.nodes[g.tree.anchor]? = _
    rw [hsteps.anchor]
    exact hsteps.nodes hs.tree hentry
  · show Chronicle taken first g.sink.records.toList entry.summary
    rw [hsink]
    exact hlog

omit [Archive τ] in
theorem Sound.continues (hs : h.Sound taken first) {u : ForkTree}
    (hgrown : ForkTree.Sprouting h.frontier.tree u) {path : List Snapshot} {target : Position}
    (hpath : u.Branch path target) :
    ∃ last, Chronicle taken first (h.ledger.records.toList ++ path.map Snapshot.summary) last := by
  obtain ⟨entry, hentry, hlog⟩ := hs.joined
  have hanchor : u.nodes[u.anchor]? = some ⟨entry, none⟩ := by
    rw [hgrown.anchor]
    exact hgrown.nodes hs.tree hentry
  obtain ⟨node, -, hchronicle⟩ := hpath.chronicle (hgrown.sound hs.tree)
    ((hgrown.steps taken).backed hs.tree hs.backed) hanchor hlog
  exact ⟨_, hchronicle⟩

/-- Handing over a branch keeps the invariant: as many entries as the ledger takes are recorded, and
the anchor moves to the last one of them. -/
theorem Sound.settle (hsteady : Archive.Steady τ) (hs : h.Sound taken first) {u : ForkTree}
    (hgrown : ForkTree.Sprouting h.frontier.tree u) {target : Position} {path : List Snapshot}
    (hpath : u.Branch path target) {g : Frontier (Ledger τ)} (hopen : g.poisoned = false)
    (htree : g.tree = Frontier.settled (Frontier.handOver path h.ledger).accepted u)
    (hsink : g.sink = (Frontier.handOver path h.ledger).sink) :
    (⟨g⟩ : History τ).Sound taken first ∧
      g.sink.records.toList =
        h.ledger.records.toList ++ (Frontier.handOver path h.ledger).accepted.map Snapshot.summary := by
  have hsteps := hgrown.steps taken
  have hu := hgrown.sound hs.tree
  have hbacked := hsteps.backed hs.tree hs.backed
  obtain ⟨entry, hentry, hlog⟩ := hs.joined
  have hanchor : u.nodes[u.anchor]? = some ⟨entry, none⟩ := by
    rw [hgrown.anchor]
    exact hgrown.nodes hs.tree hentry
  obtain ⟨hkeeps, hrecords, -⟩ := hs.ledger.handed hsteady (hs.continues hgrown hpath)
  rw [← hsink] at hkeeps hrecords
  refine ⟨?_, hrecords⟩
  have hspec : u.spec.validate = .ok () := by
    rw [hsteps.spec]
    exact hs.spec
  obtain ⟨a, -, -, hsettles⟩ :=
    Frontier.exists_settles hu hpath (Frontier.prefix_accepted path h.ledger)
  cases hsettles with
  | stays hnone heq =>
    -- Nothing was taken: the anchor and the records are what they were.
    rw [hnone, List.map_nil, List.append_nil] at hrecords
    rw [heq] at htree
    refine ⟨hopen, ?_, ?_, ?_, hkeeps, entry, ?_, ?_⟩
    · exact htree ▸ hspec
    · exact htree ▸ hu
    · exact htree ▸ hbacked
    · exact htree ▸ hanchor
    · exact hrecords ▸ hlog
  | @moves _ node hnode hlast hslot heq =>
    rw [heq] at htree
    have ha : a ∈ u.nodes := Lookup.mem_of_eq_some hnode
    refine ⟨hopen, ?_, ?_, ?_, hkeeps, node.entry, ?_, ?_⟩
    · show g.tree.spec.validate = .ok ()
      rw [htree, ForkTree.spec_reanchor]
      exact hspec
    · exact htree ▸ hu.reanchor ha hslot
    · exact htree ▸ hbacked.reanchor hu ha hslot
    · show g.tree.nodes[g.tree.anchor]? = _
      rw [htree, ForkTree.anchor_reanchor]
      refine (ForkTree.nodes_reanchor_iff hu ha).2 ⟨node, hnode, ForkTree.descends_refl u a, ?_⟩
      exact (if_pos rfl).symm
    · -- The last entry that was taken is the last record and the new anchor.
      obtain ⟨last, hlastLog⟩ := hkeeps.chronicle
      have hend := hlastLog.getLast?
      rw [hrecords, List.getLast?_append, List.getLast?_map, hlast] at hend
      have hsame : node.entry.summary = last := Option.some.inj hend
      exact hsame ▸ hlastLog

theorem Sound.move (hsteady : Archive.Steady τ) (hs : h.Sound taken first) {u : ForkTree}
    {g : Frontier (Ledger τ)} (hmove : Frontier.Move taken h.frontier u g) :
    (⟨g⟩ : History τ).Sound taken first ∧ h.ledger.records.toList <+: g.sink.records.toList := by
  have hopen := hmove.opened (Ledger.sink_steady hsteady) hs.spec hs.opened
  cases hmove with
  | grow hsteps _ hsink => exact ⟨hs.grow hsteps hsink hopen, hsink ▸ List.prefix_refl _⟩
  | settle hgrown hpath htree hsink =>
    rw [Ledger.pruneAll_eq] at hsink
    obtain ⟨hsound, hrecords⟩ := hs.settle hsteady hgrown hpath hopen htree hsink
    exact ⟨hsound, hrecords ▸ List.prefix_append _ _⟩
  | broke _ _ hpoisoned =>
    rw [hopen] at hpoisoned
    cases hpoisoned

/-- A call keeps the invariant, and adds to the records if it changes them. -/
theorem Call.sound (c : Call) (hsteady : Archive.Steady τ)
    (hK : CollisionFree (c.toHot.hashed h.frontier))
    (htaken : ∀ b ∈ c.toHot.accepted h.frontier, taken b) (hs : h.Sound taken first) :
    (c.after h).Sound taken first ∧ h.ledger.records.toList <+: (c.after h).ledger.records.toList := by
  have hafter : c.after h = ⟨c.toHot.after h.frontier⟩ := congrArg History.mk (c.frontier_after h)
  have hmove := (c.toHot.move hs.tree hK).mono htaken
  rw [hafter]
  exact hs.move hsteady hmove

theorem hashed_cons (c : Call) (calls : List Call) (h : History τ) :
    hashed (c :: calls) h = c.toHot.hashed h.frontier ++ hashed calls (c.after h) := by
  unfold hashed
  rw [c.frontier_after]
  rfl

theorem accepted_cons (c : Call) (calls : List Call) (h : History τ) :
    accepted (c :: calls) h = c.toHot.accepted h.frontier ++ accepted calls (c.after h) := by
  unfold accepted
  rw [c.frontier_after]
  rfl

theorem play_append (calls later : List Call) (h : History τ) :
    play (calls ++ later) h = play later (play calls h) := List.foldl_append

theorem hashed_append (calls later : List Call) (h : History τ) :
    hashed (calls ++ later) h = hashed calls h ++ hashed later (play calls h) := by
  unfold hashed
  rw [List.map_append, Frontier.hashed_append, frontier_play]

theorem accepted_append (calls later : List Call) (h : History τ) :
    accepted (calls ++ later) h = accepted calls h ++ accepted later (play calls h) := by
  unfold accepted
  rw [List.map_append, Frontier.accepted_append, frontier_play]

/-- A run keeps the invariant, and the records before it are the first ones after it. -/
theorem Sound.play (hsteady : Archive.Steady τ) (calls : List Call) (hs : h.Sound taken first)
    (hK : CollisionFree (hashed calls h)) (htaken : ∀ b ∈ accepted calls h, taken b) :
    (play calls h).Sound taken first ∧
      h.ledger.records.toList <+: (play calls h).ledger.records.toList := by
  induction calls generalizing h with
  | nil => exact ⟨hs, List.prefix_refl _⟩
  | cons c calls ih =>
    rw [hashed_cons] at hK
    rw [accepted_cons] at htaken
    obtain ⟨htakenNow, htakenLater⟩ := List.forall_mem_append.1 htaken
    obtain ⟨hstep, hprefix⟩ := c.sound hsteady hK.left htakenNow hs
    obtain ⟨hrest, hprefix'⟩ := ih hstep hK.right htakenLater
    exact ⟨hrest, hprefix.trans hprefix'⟩

/-! ## 5. What every move keeps -/

section

variable {I : History τ → Prop} {K : List (List UInt8)} (hK : CollisionFree K)
  (hmove : ∀ {h : History τ} {u : ForkTree} {g : Frontier (Ledger τ)}, h.Sound taken first → I h →
    Frontier.Move taken h.frontier u g → (∀ x ∈ u.hashed, x ∈ K) → I ⟨g⟩)

include hK hmove

theorem Call.keeps (c : Call) (hknown : ∀ x ∈ c.toHot.hashed h.frontier, x ∈ K)
    (htaken : ∀ b ∈ c.toHot.accepted h.frontier, taken b) (hs : h.Sound taken first)
    (hkeeps : I h) : I (c.after h) := by
  have hafter : c.after h = ⟨c.toHot.after h.frontier⟩ := congrArg History.mk (c.frontier_after h)
  have hstep := (c.toHot.move hs.tree (hK.mono hknown)).mono htaken
  rw [hafter]
  exact hmove hs hkeeps hstep fun x hx => hknown x (c.toHot.hashed_base hs.opened x hx)

theorem keeps_play (hsteady : Archive.Steady τ) (calls : List Call)
    (hknown : ∀ x ∈ hashed calls h, x ∈ K) (htaken : ∀ b ∈ accepted calls h, taken b)
    (hs : h.Sound taken first) (hkeeps : I h) : I (play calls h) := by
  induction calls generalizing h with
  | nil => exact hkeeps
  | cons c calls ih =>
    rw [hashed_cons] at hknown
    rw [accepted_cons] at htaken
    obtain ⟨hknownNow, hknownLater⟩ := List.forall_mem_append.1 hknown
    obtain ⟨htakenNow, htakenLater⟩ := List.forall_mem_append.1 htaken
    have hsNext := (c.sound hsteady (hK.mono hknownNow) htakenNow hs).1
    exact ih hknownLater htakenLater hsNext (c.keeps hK hmove hknownNow htakenNow hs hkeeps)

end

/-! ## 6. From the start -/

theorem distinct_of_start {anchor : Snapshot} {spec : Spec} {archive : τ} {specs : Spec → Prop}
    (hanchor : anchor.state.Reached specs) (hstart : start anchor spec archive = .ok h)
    (calls : List Call) (hK : CollisionFree (hashed calls h)) :
    Distinct (· ∈ accepted calls h) anchor.summary.blockRoot := by
  obtain ⟨-, archive', -, rfl⟩ := start_eq_ok_iff.1 hstart
  exact Frontier.distinct_accepted (calls.map Call.toHot) (ForkTree.sound_plant spec hanchor.aged) rfl hK

theorem sound_of_start (hsteady : Archive.Steady τ) {anchor : Snapshot} {spec : Spec} {archive : τ}
    {specs : Spec → Prop} (hanchor : anchor.state.Reached specs)
    (hstart : start anchor spec archive = .ok h) (calls : List Call)
    (hK : CollisionFree (hashed calls h)) :
    (play calls h).Sound (· ∈ accepted calls h) anchor.summary :=
  ((sound_start hanchor hstart _).play hsteady calls hK fun _ hb => hb).1

/-! ## 7. A small history -/

open Archive (Tables)
open Frontier (tinySpec tinyAnchor)

-- A history that files its states in memory.
def tinyHistory : History Tables :=
  ⟨.plant tinyAnchor (firstLedger tinyAnchor tinySpec
    (Tables.empty.file tinyAnchor.position tinyAnchor.summary.stateRoot tinyAnchor.state)) tinySpec⟩

-- The block after the anchor.
def tinyBlock : Block := Frontier.tinyChild .zero

-- Adding the block, and finalizing it.
def tinyRun : List Call :=
  [.hot (.addBlock tinyBlock), .finalizeCheckpoint ⟨1, tinyBlock.root⟩]

theorem start_tiny : start tinyAnchor tinySpec Tables.empty = .ok tinyHistory :=
  start_eq_ok_iff.2 ⟨rfl, _, Ledger.put_eq_ok (by simp [Tables.empty]) _ _, rfl⟩

-- The history once the block is added.
def tinyGrown : History Tables := play [.hot (.addBlock tinyBlock)] tinyHistory

-- Finalizing the block.
def tinyCheckpoint : Call := .finalizeCheckpoint ⟨1, tinyBlock.root⟩

-- What the small run does, evaluated at once: apart, each part would evaluate the run again.
theorem evaluated_run_tiny :
    (CollisionFree (hashed tinyRun tinyHistory) ∧
      tinyGrown.spec = tinySpec ∧ tinyGrown.ledger.start ≤ 1 ∧
      (tinyCheckpoint.outcome tinyGrown).toBool = true ∧
      (tinyCheckpoint.after tinyGrown).frontier.tree.anchor = (Summary.ofBlock tinyBlock).position ∧
      (Chain.byBlockRoot tinyGrown tinyBlock.root).toOption.map Entry.summary =
        some (.ofBlock tinyBlock) ∧
      (Chain.byBlockRoot (play tinyRun tinyHistory) tinyBlock.root).toOption.map Entry.summary =
        some (.ofBlock tinyBlock) ∧
      Summary.ofBlock tinyBlock ≠ tinyAnchor.summary) ∧
    tinyGrown.frontier.tree.blocks[tinyBlock.root]? = some (Summary.ofBlock tinyBlock).position ∧
      tinyGrown.frontier.tree.anchor = tinyAnchor.position := by
  decide +kernel

/-- The hashes of the small run do not collide, and the checkpoint makes the block, which is served before
and after, the anchor. -/
theorem evaluated_tiny :
    CollisionFree (hashed tinyRun tinyHistory) ∧
      tinyGrown.spec = tinySpec ∧ tinyGrown.ledger.start ≤ 1 ∧
      (tinyCheckpoint.outcome tinyGrown).toBool = true ∧
      (tinyCheckpoint.after tinyGrown).frontier.tree.anchor = (Summary.ofBlock tinyBlock).position ∧
      (Chain.byBlockRoot tinyGrown tinyBlock.root).toOption.map Entry.summary =
        some (.ofBlock tinyBlock) ∧
      (Chain.byBlockRoot (play tinyRun tinyHistory) tinyBlock.root).toOption.map Entry.summary =
        some (.ofBlock tinyBlock) ∧
      Summary.ofBlock tinyBlock ≠ tinyAnchor.summary := evaluated_run_tiny.1

theorem collisionFree_tiny : CollisionFree (hashed tinyRun tinyHistory) := evaluated_tiny.1

-- To point the head nothing is hashed that another call does not hash as well.
theorem collisionFree_setHead {calls : List Call} (hs : (play calls h).Sound taken first) (root : Root)
    {c : Call} (hK : CollisionFree (hashed (calls ++ [c]) h)) :
    CollisionFree (hashed (calls ++ [.hot (.setHead root)]) h) := by
  rw [hashed_append, hashed_cons, Frontier.Call.hashed_of_open _ hs.opened] at hK ⊢
  refine hK.mono fun x hx => ?_
  simp only [List.mem_append] at hx ⊢
  rcases hx with hx | (((hx | hx) | hx) | hx)
  · exact Or.inl hx
  · exact (List.not_mem_nil hx).elim
  · exact Or.inr (Or.inl (Or.inl (Or.inr hx)))
  · exact Or.inr (Or.inl (Or.inl (Or.inr hx)))
  · exact (List.not_mem_nil hx).elim

theorem tree_setHead (hopen : h.frontier.poisoned = false) {root : Root} {p : Position}
    (hp : h.frontier.tree.blocks[root]? = some p) :
    (play [.hot (.setHead root)] h).frontier.tree = { h.frontier.tree with head := p } := by
  show ((Frontier.setHead root).after h.frontier).tree = _
  rw [Operation.after_eq, Frontier.setHead_eq root hopen, hp]
  rfl

-- Adding the block, and pointing the head at it.
def tinyHeaded : List Call := [.hot (.addBlock tinyBlock)] ++ [.hot (.setHead tinyBlock.root)]

theorem sound_grown_tiny :
    tinyGrown.Sound (· ∈ accepted [.hot (.addBlock tinyBlock)] tinyHistory) tinyAnchor.summary := by
  have hK : CollisionFree (hashed ([.hot (.addBlock tinyBlock)] ++ [tinyCheckpoint]) tinyHistory) :=
    collisionFree_tiny
  rw [hashed_append] at hK
  exact sound_of_start Ledger.tables_steady Frontier.reached_tiny start_tiny _ hK.left

theorem collisionFree_headed : CollisionFree (hashed tinyHeaded tinyHistory) :=
  collisionFree_setHead sound_grown_tiny tinyBlock.root (c := tinyCheckpoint) collisionFree_tiny

theorem ends_headed :
    (play tinyHeaded tinyHistory).frontier.tree.head = (Summary.ofBlock tinyBlock).position ∧
      (play tinyHeaded tinyHistory).frontier.tree.anchor = tinyAnchor.position := by
  have hgrown : play [.hot (.addBlock tinyBlock)] tinyHistory = tinyGrown := rfl
  obtain ⟨-, hblock, hanchor⟩ := evaluated_run_tiny
  unfold tinyHeaded
  rw [play_append, hgrown, tree_setHead sound_grown_tiny.opened hblock]
  dsimp only
  exact ⟨rfl, hanchor⟩

end History

end BeaconHistory
