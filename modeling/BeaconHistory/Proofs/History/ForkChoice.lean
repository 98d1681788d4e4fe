import BeaconHistory.Proofs.History.Exclusive
import BeaconHistory.Proofs.History.Use
import BeaconHistory.Proofs.Ledger.Alike

/-!
# History.ForkChoice — the head decides nothing else

Main statement: of two histories from one anchor over archives that behave alike, whose uses are equal but
for the heads that they set, every use that does not set the head is answered alike; the same entries are
finalized and pruned in the same order, and what is not about the branch of the head is answered alike.
-/

namespace BeaconHistory

open Operation (Parallel)
open Archive (Tables)

/-! ## 1. Answers of two chains -/

/-- The chains give one answer to the questions that `asked` tells, and to those about ancestors. -/
structure Query.AgreeOn {γ δ : Type} [Chain γ] [Chain δ] (asked : Question → Prop) (c : γ) (d : δ) :
    Prop where
  spec : Chain.spec c = Chain.spec d
  files : Chain.files c = Chain.files d
  ask : ∀ q : Question, asked q → q.ask c = q.ask d
  ancestry : ∀ a b : Root, Chain.ancestry c a b = Chain.ancestry d a b

-- Advancing towards a slot asks for a block, and for the closest entry that carries it.
theorem Query.AgreeOn.towards {γ δ : Type} [Chain γ] [Chain δ] {asked : Question → Prop} {c : γ} {d : δ}
    (h : AgreeOn asked c d) {root : Root} {slot : UInt64} (hblock : asked (.blockRoot root))
    (hclosest : asked (.closest root slot)) (ctx : Context) :
    Query.towards c ctx root slot = Query.towards d ctx root slot := by
  unfold Query.towards
  rw [show Chain.byBlockRoot c root = Chain.byBlockRoot d root from h.ask _ hblock,
    show Chain.closest c root slot = Chain.closest d root slot from h.ask _ hclosest, h.spec, h.files]

namespace History

variable {τ ρ : Type} {R : τ → ρ → Prop} {h : History τ} {k : History ρ}

/-- The histories are equal but for their heads and what was measured, over archives that are related. -/
def Alike (R : τ → ρ → Prop) (h : History τ) (k : History ρ) : Prop :=
  Frontier.Alike (Ledger.Alike R) h.frontier k.frontier

namespace Alike

theorem ledger (hsame : Alike R h k) : Ledger.Alike R h.ledger k.ledger := hsame.sink

theorem spec (hsame : Alike R h k) : h.frontier.spec = k.frontier.spec := by
  obtain ⟨p, hp⟩ := hsame.tree
  unfold Frontier.spec
  rw [hp]

theorem knows (hsame : Alike R h k) (root : Root) : h.knows root = k.knows root := by
  unfold History.knows
  rw [Frontier.Alike.containsBlock hsame, hsame.ledger.containsBlock]

variable [Archive τ] [Archive ρ]

/-! ## 2. What is answered -/

theorem ancestry (hsame : Alike R h k) (a b : Root) : h.ancestry a b = k.ancestry a b := by
  unfold History.ancestry
  rw [hsame.ledger.containsBlock, hsame.ledger.containsBlock, hsame.knows,
    Frontier.Alike.extendsAnchor hsame, Frontier.Alike.ancestry hsame,
    show h.ledger.ancestry a b = k.ledger.ancestry a b from hsame.ledger.ancestry a b]

theorem ask (hsame : Alike R h k) {q : Question} (hq : q.Headless h.frontier.tree.anchor.slot) :
    q.ask h = q.ask k := by
  rw [ask_eq, ask_eq, Frontier.Alike.ask hsame hq, hsame.ledger.ask]

theorem agrees (hsame : Alike R h k) (target : Position) : h.agrees target = k.agrees target := by
  unfold History.agrees
  rw [Frontier.Alike.anchor hsame, hsame.ledger.bySlot]

end Alike

/-! ## 3. Calls and entries -/

variable [Archive τ] [Archive ρ]

omit [Archive τ] [Archive ρ] in
theorem parallel_onFrontier {α : Type} {change : Frontier.Change (Ledger τ) α}
    {change' : Frontier.Change (Ledger ρ) α}
    (hchange : Parallel (Frontier.Alike (Ledger.Alike R)) change change') :
    Parallel (Alike R) (onFrontier change) (onFrontier change') := by
  intro h k hsame
  have hfrontier := hchange h.frontier k.frontier hsame
  unfold onFrontier
  generalize change h.frontier = x at hfrontier ⊢
  generalize change' k.frontier = y at hfrontier ⊢
  cases hfrontier with
  | ok hsame => exact .ok hsame
  | error hsame => exact .error hsame

omit [Archive τ] [Archive ρ] in
theorem parallel_onLedger {α : Type} {change : Ledger.Change τ α} {change' : Ledger.Change ρ α}
    (hchange : Parallel (Ledger.Alike R) change change') :
    Parallel (Alike R) (onLedger change) (onLedger change') := by
  intro h k hsame
  have hledger := hchange h.ledger k.ledger hsame.ledger
  unfold onLedger
  generalize change h.ledger = x at hledger ⊢
  generalize change' k.ledger = y at hledger ⊢
  cases hledger with
  | ok hl => exact .ok ⟨hsame.tree, hl, hsame.poisoned⟩
  | error hl => exact .error ⟨hsame.tree, hl, hsame.poisoned⟩

theorem parallel_finalize (hR : Archive.Alike R) (target : Position) :
    Parallel (Alike R) (finalize target) (finalize target) := by
  have hfrontier := Frontier.parallel_finalizeAfter (Ledger.alike_sink hR) (pure ())
    (Operation.parallel_pure ()) target
  refine (Operation.parallel_ofOutcome fun h k hsame => ?_).bind fun _ => parallel_onFrontier hfrontier
  rw [hsame.agrees]

theorem parallel_finalizeCheckpoint (hR : Archive.Alike R) (c : Checkpoint) :
    Parallel (Alike R) (finalizeCheckpoint c) (finalizeCheckpoint c) := by
  have hfrontier := Frontier.parallel_finalizeCheckpoint (Ledger.alike_sink hR) c
  refine (Operation.parallel_ofOutcome fun h k hsame => ?_).bind fun _ => parallel_onFrontier hfrontier
  rw [hsame.agrees, show h.spec = k.spec from hsame.spec]

/-- The answer to a use that does not set the head. -/
inductive Answer where
  | added (answer : Outcome Query.Error Snapshot)
  | finalized (answer : Outcome Query.Error Nat)
  | ingested (answer : Outcome Query.Error Unit)

namespace Use

-- Whether a use sets the head.
def setsHead : Use → Bool
  | call c => c.toHot.setsHead
  | ingest _ => false

/-- What a use is answered, unless it sets the head. -/
def answer : Use → History τ → List Answer
  | call (.hot (.addBlock b)), h => [.added ((onFrontier (Frontier.addBlock b)).outcome h)]
  | call (.hot (.setHead _)), _ => []
  | call (.hot (.finalize target)), h =>
    [.finalized ((onFrontier (Frontier.finalize target)).outcome h)]
  | call (.hot (.finalizeCheckpoint c)), h =>
    [.finalized ((onFrontier (Frontier.finalizeCheckpoint c)).outcome h)]
  | call (.finalize target), h => [.finalized ((History.finalize target).outcome h)]
  | call (.finalizeCheckpoint c), h => [.finalized ((History.finalizeCheckpoint c).outcome h)]
  | ingest entry, h => [.ingested ((onLedger (Ledger.ingest entry)).outcome h)]

theorem exists_of_setsHead {u : Use} (hu : u.setsHead = true) : ∃ root, u = call (.hot (.setHead root)) := by
  cases u with
  | call c =>
    cases c with
    | hot c =>
      cases c with
      | setHead root => exact ⟨root, rfl⟩
      | _ => cases hu
    | _ => cases hu
  | ingest entry => cases hu

theorem answer_of_setsHead {u : Use} (hu : u.setsHead = true) (h : History τ) : u.answer h = [] := by
  obtain ⟨root, rfl⟩ := exists_of_setsHead hu
  rfl

theorem answer_eq (hR : Archive.Alike R) (hsame : Alike R h k) (u : Use) : u.answer h = u.answer k := by
  have hsink := Ledger.alike_sink hR
  have hfinalize (target : Position) := Frontier.parallel_finalizeAfter hsink (pure ())
    (Operation.parallel_pure ()) target
  cases u with
  | call c =>
    cases c with
    | hot c =>
      cases c with
      | addBlock b =>
        exact congrArg (fun o => [Answer.added o])
          ((parallel_onFrontier (Frontier.parallel_addBlock b)).outcome_eq hsame)
      | setHead root => rfl
      | finalize target =>
        exact congrArg (fun o => [Answer.finalized o])
          ((parallel_onFrontier (hfinalize target)).outcome_eq hsame)
      | finalizeCheckpoint c =>
        exact congrArg (fun o => [Answer.finalized o])
          ((parallel_onFrontier (Frontier.parallel_finalizeCheckpoint hsink c)).outcome_eq hsame)
    | finalize target =>
      exact congrArg (fun o => [Answer.finalized o]) ((parallel_finalize hR target).outcome_eq hsame)
    | finalizeCheckpoint c =>
      exact congrArg (fun o => [Answer.finalized o])
        ((parallel_finalizeCheckpoint hR c).outcome_eq hsame)
  | ingest entry =>
    exact congrArg (fun o => [Answer.ingested o])
      ((parallel_onLedger (Ledger.parallel_ingest hR entry)).outcome_eq hsame)

/-- Uses that are equal but for the heads that they set leave frontiers that are equal but for their heads,
over any sinks that stay related by what they are told. -/
theorem alike_foldl {σ ω : Type} [Frontier.Sink σ] [Frontier.Sink ω] {S : σ → ω → Prop}
    (hS : Frontier.Sink.Alike S) {tell : Snapshot → σ → σ} {tell' : Snapshot → ω → ω}
    (htell : ∀ entry s r, S s r → S (tell entry s) (tell' entry r)) {uses later : List Use}
    (huses : EqualBut setsHead uses later) {f : Frontier σ} {g : Frontier ω} (hsame : Frontier.Alike S f g) :
    Frontier.Alike S (uses.foldl (fun f u => u.onto tell f) f)
      (later.foldl (fun g u => u.onto tell' g) g) := by
  induction huses generalizing f g with
  | nil => exact hsame
  | left hu _ ih =>
    obtain ⟨root, rfl⟩ := exists_of_setsHead hu
    exact ih (hsame.setHead_left root)
  | right hu _ ih =>
    obtain ⟨root, rfl⟩ := exists_of_setsHead hu
    exact ih (hsame.setHead_right root)
  | @both u _ _ hu _ ih =>
    cases u with
    | call c => exact ih (Frontier.Call.alike_after hS hu hsame)
    | ingest entry => exact ih ⟨hsame.tree, htell entry _ _ hsame.sink, hsame.poisoned⟩

end Use

/-! ## 4. Runs -/

def answers : List Use → History τ → List Answer
  | [], _ => []
  | u :: uses, h => u.answer h ++ answers uses (u.after h)

/-- The uses without those that set the head. -/
def unheaded (uses : List Use) : List Use := uses.filter (!·.setsHead)

variable {uses later : List Use}

theorem alike_perform (hR : Archive.Alike R) (huses : EqualBut Use.setsHead uses later)
    (hsame : Alike R h k) : Alike R (perform uses h) (perform later k) := by
  unfold Alike
  rw [frontier_perform, frontier_perform]
  exact Use.alike_foldl (Ledger.alike_sink hR) (fun entry _ _ hl => (Ledger.parallel_ingest hR entry).after hl)
    huses hsame

theorem answers_eq (hR : Archive.Alike R) (huses : EqualBut Use.setsHead uses later)
    (hsame : Alike R h k) : answers uses h = answers later k := by
  induction huses generalizing h k with
  | nil => rfl
  | @left u uses later hu _ ih =>
    have hstep : Alike R (u.after h) k := alike_perform hR (EqualBut.nil.left hu) hsame
    show u.answer h ++ answers uses (u.after h) = answers later k
    rw [u.answer_of_setsHead hu, ih hstep, List.nil_append]
  | @right u uses later hu _ ih =>
    have hstep : Alike R h (u.after k) := alike_perform hR (EqualBut.nil.right hu) hsame
    show answers uses h = u.answer k ++ answers later (u.after k)
    rw [u.answer_of_setsHead hu, ih hstep, List.nil_append]
  | @both u uses later hu _ ih =>
    have hstep : Alike R (u.after h) (u.after k) := alike_perform hR (EqualBut.nil.both hu) hsame
    show u.answer h ++ answers uses (u.after h) = u.answer k ++ answers later (u.after k)
    rw [u.answer_eq hR hsame, ih hstep]

theorem alike_start (hR : Archive.Alike R) {archive : τ} {archive' : ρ} (harchive : R archive archive')
    {anchor : Snapshot} {spec : Spec} (hstart : start anchor spec archive = .ok h) :
    ∃ k : History ρ, start anchor spec archive' = .ok k ∧ Alike R h k := by
  obtain ⟨hspec, filed, hput, rfl⟩ := start_eq_ok_iff.1 hstart
  have hsame := hR.put anchor.position anchor.summary.stateRoot anchor.state _ _ harchive
  rw [hput] at hsame
  generalize hput' : Archive.put anchor.position anchor.summary.stateRoot anchor.state archive' = y at hsame
  cases hsame with
  | @ok _ _ filed' hfiled =>
    refine ⟨_, start_eq_ok_iff.2 ⟨hspec, filed', hput', rfl⟩, ForkTree.Alike.refl _, ?_, rfl⟩
    exact ⟨rfl, hfiled, rfl, rfl, rfl, rfl, rfl⟩

/-- What two histories have in common whose uses differ in the heads that they set. -/
structure HeadBlind (uses later : List Use) (h : History τ) (k : History ρ) : Prop where
  answers : answers uses h = answers later k
  -- The notes are of the runs themselves.
  watched : (watch uses h).unwatched = (perform uses h).frontier ∧
    (watch later k).unwatched = (perform later k).frontier
  -- What was finalized and pruned, in order.
  accepted : (watch uses h).sink.accepted = (watch later k).sink.accepted
  pruned : (watch uses h).sink.pruned = (watch later k).sink.pruned
  records : (perform uses h).ledger.records = (perform later k).ledger.records
  anchor : (perform uses h).frontier.anchor = (perform later k).frontier.anchor
  finalized : (perform uses h).frontier.finalized = (perform later k).frontier.finalized
  size : (perform uses h).frontier.size = (perform later k).frontier.size
  -- The head is only asked for by a slot after the anchor, and by spans.
  whole : Query.AgreeOn (Question.Headless (perform uses h).frontier.tree.anchor.slot) (perform uses h)
    (perform later k)
  frontier : Query.AgreeOn (Question.Headless (perform uses h).frontier.tree.anchor.slot)
    (perform uses h).frontier (perform later k).frontier
  ledger : Query.AgreeOn (fun _ => True) (perform uses h).ledger (perform later k).ledger
  span : Chain.span (perform uses h).ledger = Chain.span (perform later k).ledger
  towards : ∀ (ctx : Context) (root : Root) (slot : UInt64),
    Query.towards (perform uses h) ctx root slot = Query.towards (perform later k) ctx root slot

theorem headBlind (hR : Archive.Alike R) (huses : EqualBut Use.setsHead uses later)
    (hsame : Alike R h k) : HeadBlind uses later h k := by
  have hperform := alike_perform hR huses hsame
  have hwatched : Frontier.Alike (Frontier.Watched.Alike (Ledger.Alike R)) h.frontier.watched
      k.frontier.watched := ⟨hsame.tree, ⟨hsame.sink, rfl, rfl⟩, hsame.poisoned⟩
  have htold (entry : Snapshot) (w : Frontier.Watched (Ledger τ)) (v : Frontier.Watched (Ledger ρ))
      (hw : Frontier.Watched.Alike (Ledger.Alike R) w v) :
      Frontier.Watched.Alike (Ledger.Alike R) (toldWatched entry w) (toldWatched entry v) :=
    ⟨(Ledger.parallel_ingest hR entry).after hw.sink, hw.accepted, hw.pruned⟩
  have hnotes : Frontier.Alike (Frontier.Watched.Alike (Ledger.Alike R)) (watch uses h) (watch later k) :=
    Use.alike_foldl (Ledger.alike_sink hR).watched htold huses hwatched
  have hwhole : Query.AgreeOn (Question.Headless (perform uses h).frontier.tree.anchor.slot)
      (perform uses h) (perform later k) :=
    ⟨hperform.spec, hperform.ledger.files hR, fun q hq => hperform.ask hq, hperform.ancestry⟩
  exact {
    answers := answers_eq hR huses hsame
    watched := ⟨unwatched_watch uses h, unwatched_watch later k⟩
    accepted := hnotes.sink.accepted
    pruned := hnotes.sink.pruned
    records := hperform.ledger.records
    anchor := Frontier.Alike.anchor hperform
    finalized := Frontier.Alike.finalized hperform
    size := Frontier.Alike.size hperform
    whole := hwhole
    frontier := ⟨hperform.spec, rfl, fun q hq => Frontier.Alike.ask hperform hq,
      Frontier.Alike.ancestry hperform⟩
    ledger := ⟨hperform.ledger.spec, hperform.ledger.files hR, fun q _ => hperform.ledger.ask q,
      hperform.ledger.ancestry⟩
    span := hperform.ledger.span
    towards := fun ctx root slot => hwhole.towards trivial trivial ctx }

/-- Over archives that behave alike a history starts from an anchor as another one does, and two of them
whose uses are equal once those that set the head are left out, whether they succeed or not, are told apart
by nothing but the head and its branch. -/
theorem forkChoice_of_run (hR : Archive.Alike R) {archive : τ} {archive' : ρ} (harchive : R archive archive')
    {anchor : Snapshot} {spec : Spec} (hstart : start anchor spec archive = .ok h)
    (huses : unheaded uses = unheaded later) :
    ∃ k : History ρ, start anchor spec archive' = .ok k ∧ HeadBlind uses later h k := by
  obtain ⟨k, hstart', hsame⟩ := alike_start hR harchive hstart
  exact ⟨k, hstart', headBlind hR (EqualBut.of_filter_eq huses) hsame⟩

theorem forkChoice_of_run_tiny :
    unheaded (tinyHeaded.map Use.call) = unheaded [.call (.hot (.addBlock tinyBlock))] ∧
      ∃ k : History Tables, start Frontier.tinyAnchor Frontier.tinySpec Tables.empty = .ok k ∧
        HeadBlind (tinyHeaded.map Use.call) [.call (.hot (.addBlock tinyBlock))] tinyHistory k := by
  have huses : unheaded (tinyHeaded.map Use.call) = unheaded [.call (.hot (.addBlock tinyBlock))] := rfl
  exact ⟨huses, forkChoice_of_run (Archive.alike_eq Tables) rfl start_tiny huses⟩

end History

end BeaconHistory
