import BeaconHistory.Proofs.Frontier.Finalization

/-!
# Frontier.Run — any calls in any order

A call either leaves the anchor where it is, or hands the branch of a target to the sink and moves the
anchor to the last entry that the sink took.  Main statement: after any run of calls, refused ones
included, the tree is sound and every node is as many steps away from the anchor as slots.
-/

namespace BeaconHistory

namespace Frontier

variable {σ : Type} [Sink σ] {f g : Frontier σ}

/-! ## 1. Calls -/

/-- The calls that change a frontier. -/
inductive Call where
  | addBlock (b : Block)
  | setHead (root : Root)
  | finalize (target : Position)
  | finalizeCheckpoint (c : Checkpoint)
deriving DecidableEq

namespace Call

-- The frontier that a call leaves behind, whether it is refused or not.
def after : Call → Frontier σ → Frontier σ
  | addBlock b => (Frontier.addBlock b).after
  | setHead root => (Frontier.setHead root).after
  | finalize target => (Frontier.finalize target).after
  | finalizeCheckpoint c => (Frontier.finalizeCheckpoint c).after

-- Whether a call succeeds, and why it does not.
def outcome : Call → Frontier σ → Outcome Error Unit
  | addBlock b, f => Outcome.done ((Frontier.addBlock b).outcome f)
  | setHead root, f => (Frontier.setHead root).outcome f
  | finalize target, f => Outcome.done ((Frontier.finalize target).outcome f)
  | finalizeCheckpoint c, f => Outcome.done ((Frontier.finalizeCheckpoint c).outcome f)

-- The blocks that a call takes: that of an addition that succeeds.
def accepted : Call → Frontier σ → List Block
  | addBlock b, f => match (Frontier.addBlock b).outcome f with
    | .ok _ => [b]
    | .error _ => []
  | _, _ => []

-- The blocks whose root a call computes: one that is not after the anchor is refused before.
def offered : Call → ForkTree → List Block
  | addBlock b, t => if b.slot ≤ t.anchor.slot then [] else [b]
  | _, _ => []

-- The tree once a call has grown it, before the anchor moves.
def grown : Call → ForkTree → ForkTree
  | addBlock b, t => (ForkTree.insertBlock b).after t
  | finalizeCheckpoint c, t =>
    let target := checkpointPosition t.spec c
    if target.slot ≤ t.anchor.slot then t else (ForkTree.reachSlot c.root target.slot).after t
  | _, t => t

/-- What is hashed for the blocks that a call is offered and for the entries that it finds and makes.
A closed frontier looks at nothing. -/
def hashed (c : Call) (f : Frontier σ) : List (List UInt8) :=
  if f.poisoned then []
  else (c.offered f.tree).map (fun b => b.preimage) ++ f.tree.hashed ++ (c.grown f.tree).hashed

end Call

def play (calls : List Call) (f : Frontier σ) : Frontier σ := calls.foldl (fun f c => c.after f) f

def accepted : List Call → Frontier σ → List Block
  | [], _ => []
  | c :: calls, f => c.accepted f ++ accepted calls (c.after f)

/-- The strings hashed in a run. -/
def hashed : List Call → Frontier σ → List (List UInt8)
  | [], _ => []
  | c :: calls, f => c.hashed f ++ hashed calls (c.after f)

theorem play_append (calls later : List Call) (f : Frontier σ) :
    play (calls ++ later) f = play later (play calls f) := List.foldl_append

theorem play_concat (calls : List Call) (c : Call) (f : Frontier σ) :
    play (calls ++ [c]) f = c.after (play calls f) := play_append calls [c] f

theorem hashed_append (calls later : List Call) (f : Frontier σ) :
    hashed (calls ++ later) f = hashed calls f ++ hashed later (play calls f) := by
  induction calls generalizing f with
  | nil => rfl
  | cons c calls ih =>
    show c.hashed f ++ hashed (calls ++ later) (c.after f) = _
    rw [ih, ← List.append_assoc]
    rfl

theorem accepted_append (calls later : List Call) (f : Frontier σ) :
    accepted (calls ++ later) f = accepted calls f ++ accepted later (play calls f) := by
  induction calls generalizing f with
  | nil => rfl
  | cons c calls ih =>
    show c.accepted f ++ accepted (calls ++ later) (c.after f) = _
    rw [ih, ← List.append_assoc]
    rfl

/-! ## 2. What a call does -/

/-- What a call does to the tree and the sink, once the tree has grown to `u`. -/
inductive Move (accepted : Block → Prop) (f : Frontier σ) (u : ForkTree) : Frontier σ → Prop where
  -- The anchor stays.
  | grow {g : Frontier σ} (hsteps : ForkTree.Steps accepted f.tree g.tree)
      (hnodes : g.tree.nodes = u.nodes) (hsink : g.sink = f.sink) (hopen : g.poisoned = f.poisoned) :
      Move accepted f u g
  -- A branch is handed over, and the anchor moves to what was taken.
  | settle {g : Frontier σ} {target : Position} {path : List Snapshot}
      (hgrown : ForkTree.Sprouting f.tree u) (hpath : u.Branch path target)
      (htree : g.tree = settled (handOver path f.sink).accepted u)
      (hsink : g.sink =
        pruneAll (outcast (handOver path f.sink).accepted u) (handOver path f.sink).sink)
      (hopen : g.poisoned = false) : Move accepted f u g
  -- The constants cannot divide, or the sink breaks off.
  | broke {g : Frontier σ} (hgrown : ForkTree.Sprouting f.tree u) (htree : g.tree = u)
      (hpoisoned : g.poisoned = true)
      (hcause : (g.sink = f.sink ∧ f.tree.spec.validate ≠ .ok ()) ∨
        ∃ path entry fault, (handOver path f.sink).stopped = some (entry, .broke fault)) :
      Move accepted f u g

variable {u : ForkTree}

theorem Move.mono {accepted accepted' : Block → Prop} (hsub : ∀ b, accepted b → accepted' b)
    (h : Move accepted f u g) : Move accepted' f u g := by
  cases h with
  | grow hsteps hnodes hsink hopen => exact .grow (hsteps.mono hsub) hnodes hsink hopen
  | settle hgrown hpath htree hsink hopen => exact .settle hgrown hpath htree hsink hopen
  | broke hgrown htree hpoisoned hcause => exact .broke hgrown htree hpoisoned hcause

theorem Move.spec {accepted : Block → Prop} (h : Move accepted f u g) :
    g.tree.spec = f.tree.spec := by
  cases h with
  | grow hsteps => exact hsteps.spec
  | @settle _ path hgrown _ htree _ _ =>
    have hu : u.spec = f.tree.spec := (hgrown.steps fun _ => False).spec
    rw [htree]
    unfold settled
    cases (handOver path f.sink).accepted.getLast? with
    | none => exact hu
    | some last => exact (ForkTree.spec_reanchor u last.position).trans hu
  | broke hgrown htree => exact htree ▸ (hgrown.steps fun _ => False).spec

theorem Move.sound {accepted : Block → Prop} (h : Move accepted f u g) (ht : f.tree.Sound) :
    g.tree.Sound := by
  cases h with
  | grow hsteps => exact hsteps.sound ht
  | settle hgrown hpath htree =>
    rw [htree]
    exact sound_settled (hgrown.sound ht) hpath (prefix_accepted _ _)
  | broke hgrown htree => exact htree ▸ hgrown.sound ht

theorem Move.indexed {accepted : Block → Prop} (h : Move accepted f u g) (ht : f.tree.Sound)
    (hindexed : f.tree.Indexed) {K : List (List UInt8)} (hK : CollisionFree K)
    (hhashed : ∀ x ∈ u.hashed, x ∈ K) : g.tree.Indexed := by
  cases h with
  | grow hsteps hnodes =>
    have hsame : g.tree.hashed = u.hashed := by rw [ForkTree.hashed, hnodes, ForkTree.hashed]
    exact hsteps.indexed ht hindexed hK (hsame ▸ hhashed)
  | settle hgrown hpath htree =>
    have hu := (hgrown.steps fun _ => False).indexed ht hindexed hK hhashed
    exact htree ▸ indexed_settled (hgrown.sound ht) hu hK hhashed hpath (prefix_accepted _ _)
  | broke hgrown htree =>
    exact htree ▸ (hgrown.steps fun _ => False).indexed ht hindexed hK hhashed

/-- The sink may reject an entry, and does not break off. -/
def Sink.Steady (σ : Type) [Sink σ] : Prop :=
  ∀ (entry : Snapshot) (sink : σ), (Sink.offer entry).Steady sink

theorem stopped_ne_broke (hsteady : Sink.Steady σ) (path : List Snapshot) (sink : σ)
    (entry : Snapshot) (fault : Fault) :
    (handOver path sink).stopped ≠ some (entry, .broke fault) := by
  induction path generalizing sink with
  | nil =>
    intro h
    cases h
  | cons e path ih =>
    unfold handOver
    cases hoffer : Sink.offer e sink with
    | ok _ sink => exact ih sink
    | error failure sink' =>
      intro h
      cases h
      exact hsteady entry sink fault sink' hoffer

theorem Move.opened {accepted : Block → Prop} (h : Move accepted f u g) (hsteady : Sink.Steady σ)
    (hspec : f.tree.spec.validate = .ok ()) (hopen : f.poisoned = false) : g.poisoned = false := by
  cases h with
  | grow _ _ _ hsame => exact hsame.trans hopen
  | settle _ _ _ _ hopen => exact hopen
  | broke _ _ _ hcause =>
    rcases hcause with ⟨-, hinvalid⟩ | ⟨path, entry, fault, hstopped⟩
    · exact absurd hspec hinvalid
    · exact absurd hstopped (stopped_ne_broke hsteady path f.sink entry fault)

theorem Move.refl (accepted : Block → Prop) (f : Frontier σ) : Move accepted f f.tree f :=
  .grow Relation.ReflTransGen.refl rfl rfl rfl

/-- A branch of `u` towards `target` was handed over, and the anchor has moved to what was taken. -/
structure Settlement (f : Frontier σ) (u : ForkTree) (target : Position) (path : List Snapshot)
    (g : Frontier σ) : Prop where
  branch : ∃ stop, u.Branch path stop ∧ (stop = target ∨ stop = u.anchor)
  tree : g.tree = settled (handOver path f.sink).accepted u
  sink : g.sink = pruneAll (outcast (handOver path f.sink).accepted u) (handOver path f.sink).sink
  opened : g.poisoned = false

-- Where nothing is handed over, the branch is that of the anchor itself.
theorem settlement_nil {target : Position} (htree : g.tree = u) (hsink : g.sink = f.sink)
    (hopen : g.poisoned = false) : Settlement f u target [] g :=
  ⟨⟨u.anchor, .anchor, Or.inr rfl⟩, htree, hsink, hopen⟩

/-- Unless it breaks off, a finalization settles on the branch of its target. -/
theorem Finalized.settlement {target : Position}
    {answer : EStateM.Result (Failure Error) (Frontier σ) Nat} (h : Finalized f u target answer)
    (hgrown : ForkTree.Sprouting f.tree u) (hsame : target.slot ≤ f.tree.anchor.slot → u = f.tree)
    (ht : f.tree.Sound) (hopen : f.poisoned = false) :
    (∃ path, Settlement f u target path (Operation.left answer)) ∨
      (Operation.left answer).tree = u ∧ (Operation.left answer).poisoned = true ∧
        ((Operation.left answer).sink = f.sink ∧ f.tree.spec.validate ≠ .ok () ∨
          ∃ path entry fault, (handOver path f.sink).stopped = some (entry, .broke fault)) := by
  cases h with
  | before hslot => exact Or.inl ⟨[], settlement_nil (hsame (UInt64.le_of_lt hslot)).symm rfl hopen⟩
  | anchor heq => exact Or.inl ⟨[], settlement_nil (hsame (heq ▸ UInt64.le_refl _)).symm rfl hopen⟩
  | refused htree hsink hopen' => exact Or.inl ⟨[], settlement_nil htree hsink hopen'⟩
  | @whole g path hslot hpath hstopped htree hsink hopen' =>
    -- The whole path was taken, and its last entry is the target.
    have hne : target ≠ u.anchor := by
      rintro rfl
      rw [hgrown.anchor] at hslot
      exact UInt64.lt_irrefl _ hslot
    obtain ⟨hsettled, houtcast⟩ := settled_whole (hgrown.sound ht) hpath hne
    have haccepted := accepted_eq_of_stopped path f.sink hstopped
    refine Or.inl ⟨path, ⟨target, hpath, Or.inl rfl⟩, ?_, ?_, hopen'⟩
    · rw [haccepted, hsettled]
      exact htree
    · rw [haccepted, houtcast]
      exact hsink
  | part _ hpath _ htree hsink hopen' =>
    exact Or.inl ⟨_, ⟨target, hpath, Or.inl rfl⟩, htree, hsink, hopen'⟩
  | broke htree hpoisoned hcause =>
    exact Or.inr ⟨htree, hpoisoned, hcause.imp_right fun ⟨path, entry, hstopped⟩ => ⟨path, entry, _, hstopped⟩⟩

theorem Finalized.move (accepted : Block → Prop) {target : Position}
    {answer : EStateM.Result (Failure Error) (Frontier σ) Nat} (h : Finalized f u target answer)
    (hgrown : ForkTree.Sprouting f.tree u) (hsame : target.slot ≤ f.tree.anchor.slot → u = f.tree)
    (ht : f.tree.Sound) (hopen : f.poisoned = false) :
    Move accepted f u (Operation.left answer) := by
  obtain ⟨path, hsettles⟩ | ⟨htree, hpoisoned, hcause⟩ := h.settlement hgrown hsame ht hopen
  · obtain ⟨stop, hpath, -⟩ := hsettles.branch
    exact .settle hgrown hpath hsettles.tree hsettles.sink hsettles.opened
  · exact .broke hgrown htree hpoisoned hcause

theorem Call.after_of_poisoned (c : Call) (h : f.poisoned = true) : c.after f = f := by
  cases c with
  | addBlock b => exact Operation.after_eq_of_error (exclusively_of_poisoned _ h)
  | setHead root => exact Operation.after_eq_of_error (exclusively_of_poisoned _ h)
  | finalize target => exact Operation.after_eq_of_error (exclusively_of_poisoned _ h)
  | finalizeCheckpoint c => exact Operation.after_eq_of_error (exclusively_of_poisoned _ h)

theorem Call.outcome_of_poisoned (c : Call) (h : f.poisoned = true) :
    c.outcome f = .error (.refused .poisoned) := by
  have hrefused {α : Type} (change : Change σ α) :
      (exclusively change).outcome f = .error (.refused .poisoned) := by
    unfold Operation.outcome EStateM.run
    rw [exclusively_of_poisoned change h]
  cases c with
  | addBlock b => exact congrArg Outcome.done (hrefused _)
  | setHead root => exact hrefused _
  | finalize target => exact congrArg Outcome.done (hrefused _)
  | finalizeCheckpoint c => exact congrArg Outcome.done (hrefused _)

-- A frontier that says anything else than that it is closed is open.
theorem Call.opened_of_outcome (c : Call) (h : c.outcome f ≠ .error (.refused .poisoned)) :
    f.poisoned = false :=
  Bool.eq_false_iff.2 fun hpoisoned => h (c.outcome_of_poisoned hpoisoned)

omit [Sink σ] in
theorem Call.hashed_of_open (c : Call) (hopen : f.poisoned = false) :
    c.hashed f =
      (c.offered f.tree).map (fun b => b.preimage) ++ f.tree.hashed ++ (c.grown f.tree).hashed := by
  unfold Call.hashed
  rw [if_neg (by rw [hopen]; decide)]

omit [Sink σ] in
/-- Adding a block leaves empty slots behind if it fails; otherwise the block was held already or is
added. -/
theorem adds_addBlock (b : Block) (ht : f.tree.Sound) (hopen : f.poisoned = false)
    (hK : CollisionFree ((Call.addBlock b).hashed f)) :
    (∀ e u, ForkTree.insertBlock b f.tree = .error e u → ForkTree.Sprouting f.tree u) ∧
      ∀ entry u, ForkTree.insertBlock b f.tree = .ok entry u →
        u = f.tree ∧ f.tree.block? b.root = some entry ∨ f.tree.Adds b entry u := by
  rw [Call.hashed_of_open _ hopen] at hK
  apply ht.adds_insertBlock hK
  · intro x hx
    exact List.mem_append_left _ (List.mem_append_right _ hx)
  · intro hslot
    have hoffered : (Call.addBlock b).offered f.tree = [b] := if_neg (UInt64.not_le.2 hslot)
    rw [hoffered]
    exact List.mem_append_left _ (List.mem_append_left _ (List.mem_singleton_self _))
  · intro x hx
    exact List.mem_append_right _ hx

theorem move_addBlock (b : Block) (ht : f.tree.Sound) (hopen : f.poisoned = false)
    (hK : CollisionFree ((Call.addBlock b).hashed f)) :
    Move (· ∈ (Call.addBlock b).accepted f) f ((ForkTree.insertBlock b).after f.tree)
      ((addBlock b).after f) := by
  obtain ⟨herror, hok⟩ := adds_addBlock b ht hopen hK
  obtain ⟨metrics, heq⟩ := addBlock_eq b hopen
  have haccepted : (Call.addBlock b).accepted f =
      match (addBlock b).outcome f with
      | .ok _ => [b]
      | .error _ => [] := rfl
  unfold Operation.outcome EStateM.run at haccepted
  rw [haccepted, Operation.after_eq, Operation.after_eq, heq]
  cases hu : ForkTree.insertBlock b f.tree with
  | error e u =>
    have hgrown := herror e u hu
    cases e with
    | refused e => exact .grow (hgrown.steps _) rfl rfl rfl
    | broke fault =>
      have hfailure := ForkTree.insertBlock_fails b _ u hu
      exact .broke hgrown rfl rfl
        (Or.inl ⟨rfl, fun hspec => absurd rfl (hfailure.not_broke hspec fault)⟩)
  | ok entry u =>
    refine .grow ?_ rfl rfl rfl
    rcases hok entry u hu with ⟨rfl, -⟩ | ⟨tip, v, hgrown, -, hgrafts, rfl⟩
    · exact Relation.ReflTransGen.refl
    · exact Relation.ReflTransGen.tail (hgrown.steps _) (.graft (List.mem_singleton_self b) hgrafts)

theorem move_setHead (accepted : Block → Prop) (root : Root) (hopen : f.poisoned = false) :
    Move accepted f f.tree ((setHead root).after f) := by
  rw [Operation.after_eq, setHead_eq root hopen]
  cases hp : f.tree.blocks[root]? with
  | none => exact .refl _ f
  | some p => exact .grow (Relation.ReflTransGen.single (.point hp)) rfl rfl rfl

theorem finalized_finalize (target : Position) (ht : f.tree.Sound) (hopen : f.poisoned = false) :
    Finalized f f.tree target (finalize target f) := by
  have hsame : grownFor (pure ()) target f.tree = f.tree := ite_self _
  have hgrowth : ForkTree.Sprouting f.tree (grownFor (pure ()) target f.tree) := by
    rw [hsame]
    exact .none f.tree
  have hfinalized : Finalized f (grownFor (pure ()) target f.tree) target
      (finalizeAfter (pure ()) target f) :=
    finalized_finalizeAfter ht hopen (Operation.fails_of_ok rfl) hgrowth
  rw [hsame] at hfinalized
  exact hfinalized

omit [Sink σ] in
theorem sprouting_grown (c : Checkpoint) (ht : f.tree.Sound)
    (hK : CollisionFree ((Call.finalizeCheckpoint c).grown f.tree).hashed) :
    ForkTree.Sprouting f.tree ((Call.finalizeCheckpoint c).grown f.tree) := by
  unfold Call.grown at hK ⊢
  dsimp only at hK ⊢
  by_cases hslot : (checkpointPosition f.tree.spec c).slot ≤ f.tree.anchor.slot
  · rw [if_pos hslot]
    exact .none f.tree
  · rw [if_neg hslot] at hK ⊢
    exact ht.sprouting_reachSlot hK fun _ hx => hx

theorem finalized_finalizeCheckpoint (c : Checkpoint) (ht : f.tree.Sound) (hopen : f.poisoned = false)
    (hK : CollisionFree ((Call.finalizeCheckpoint c).grown f.tree).hashed) :
    Finalized f ((Call.finalizeCheckpoint c).grown f.tree) (checkpointPosition f.tree.spec c)
      (finalizeCheckpoint c f) := by
  rw [finalizeCheckpoint_eq]
  exact finalized_finalizeAfter ht hopen (ForkTree.reachSlot_fails _ _) (sprouting_grown c ht hK)

-- The tree once a call has grown it; a closed frontier is not grown.
def Call.base (c : Call) (f : Frontier σ) : ForkTree := if f.poisoned then f.tree else c.grown f.tree

omit [Sink σ] in
theorem Call.base_of_open (c : Call) (hopen : f.poisoned = false) : c.base f = c.grown f.tree := by
  unfold base
  rw [hopen]
  rfl

/-- Under hashes that do not collide, every call is a move. -/
theorem Call.move (c : Call) (ht : f.tree.Sound) (hK : CollisionFree (c.hashed f)) :
    Move (· ∈ c.accepted f) f (c.base f) (c.after f) := by
  cases hopen : f.poisoned with
  | true =>
    rw [c.after_of_poisoned hopen, Call.base, if_pos hopen]
    exact .refl _ f
  | false =>
    rw [c.base_of_open hopen]
    cases c with
    | addBlock b => exact move_addBlock b ht hopen hK
    | setHead root => exact move_setHead _ root hopen
    | finalize target =>
      exact (finalized_finalize target ht hopen).move _ (.none f.tree) (fun _ => rfl) ht hopen
    | finalizeCheckpoint c =>
      rw [Call.hashed_of_open _ hopen] at hK
      exact (finalized_finalizeCheckpoint c ht hopen hK.right).move _ (sprouting_grown c ht hK.right)
        (fun hslot => if_pos hslot) ht hopen

theorem Finalized.rejected {target : Position} {answer : EStateM.Result (Failure Error) (Frontier σ) Nat}
    (h : Finalized f u target answer) {p : Position} {rejection : Rejection} {g : Frontier σ}
    (hanswer : answer = .error (.refused (.sink p rejection)) g) :
    ∃ path target entry, u.Branch path target ∧ entry.position = p ∧
      (handOver path f.sink).stopped = some (entry, .refused rejection) ∧
      g.tree = settled (handOver path f.sink).accepted u := by
  cases h with
  | before => cases hanswer
  | anchor => cases hanswer
  | refused _ _ _ he =>
    cases hanswer
    exact absurd rfl (he p rejection)
  | whole => cases hanswer
  | part _ hpath hstopped htree =>
    cases hanswer
    exact ⟨_, _, _, hpath, rfl, hstopped, htree⟩
  | broke => cases hanswer

/-- Only an entry of a branch that is handed over is rejected, and the anchor settles before it. -/
theorem Call.rejected (c : Call) (ht : f.tree.Sound) (hK : CollisionFree (c.hashed f))
    (hopen : f.poisoned = false) {p : Position} {rejection : Rejection}
    (h : c.outcome f = .error (.refused (.sink p rejection))) :
    ForkTree.Sprouting f.tree (c.base f) ∧ ∃ path target entry, (c.base f).Branch path target ∧
      entry.position = p ∧ (handOver path f.sink).stopped = some (entry, .refused rejection) ∧
      (c.after f).tree = settled (handOver path f.sink).accepted (c.base f) := by
  rw [c.base_of_open hopen]
  rw [c.hashed_of_open hopen] at hK
  cases c with
  | addBlock b =>
    obtain ⟨g, hg⟩ := Operation.exists_of_outcome_error (Outcome.done_eq_error h)
    obtain ⟨metrics, heq⟩ := addBlock_eq b hopen
    rw [heq] at hg
    cases hu : ForkTree.insertBlock b f.tree with
    | ok entry u =>
      rw [hu] at hg
      cases hg
    | error e u =>
      have hfailure := ForkTree.insertBlock_fails b e u hu
      rw [hu] at hg
      cases e with
      | refused e =>
        cases hg
        exact absurd rfl (hfailure.not_sink p rejection)
      | broke fault => cases hg
  | setHead root =>
    obtain ⟨g, hg⟩ := Operation.exists_of_outcome_error h
    rw [setHead_eq root hopen] at hg
    split at hg <;> cases hg
  | finalize target =>
    obtain ⟨g, hg⟩ := Operation.exists_of_outcome_error (Outcome.done_eq_error h)
    rw [show (Call.finalize target).after f = g from Operation.after_eq_of_error hg]
    exact ⟨.none f.tree, (finalized_finalize target ht hopen).rejected hg⟩
  | finalizeCheckpoint c =>
    obtain ⟨g, hg⟩ := Operation.exists_of_outcome_error (Outcome.done_eq_error h)
    rw [show (Call.finalizeCheckpoint c).after f = g from Operation.after_eq_of_error hg]
    exact ⟨sprouting_grown c ht hK.right,
      (finalized_finalizeCheckpoint c ht hopen hK.right).rejected hg⟩

section

variable {keeps : σ → Prop}
  (hoffer : ∀ entry sink, keeps sink → keeps (Operation.left (Sink.offer entry sink)))
  (hprune : ∀ entry sink, keeps sink → keeps (Sink.prune entry sink))

include hoffer hprune

/-- What each offer and each pruning keeps of a sink, every call keeps. -/
theorem Call.keeps_sink (c : Call) (hf : keeps f.sink) : keeps (c.after f).sink := by
  cases c with
  | addBlock b =>
    refine keeps_exclusively (I := fun f => keeps f.sink) (fun _ hf => hf) ?_ f hf
    exact (keeps_onTree fun _ _ hf => hf).bind fun _ _ hf => hf
  | setHead root =>
    exact keeps_exclusively (I := fun f => keeps f.sink) (fun _ hf => hf)
      (keeps_onTree fun _ _ hf => hf) f hf
  | finalize target => exact keeps_sink_finalizeAfter hoffer hprune (pure ()) target f hf
  | finalizeCheckpoint c =>
    show keeps ((Frontier.finalizeCheckpoint c).after f).sink
    rw [Operation.after_eq, finalizeCheckpoint_eq, ← Operation.after_eq]
    exact keeps_sink_finalizeAfter hoffer hprune _ _ f hf

theorem keeps_sink_play (calls : List Call) (hf : keeps f.sink) : keeps (play calls f).sink := by
  induction calls generalizing f with
  | nil => exact hf
  | cons c calls ih => exact ih (c.keeps_sink hoffer hprune hf)

end

/-! ## 3. Runs -/

theorem sound_play (calls : List Call) (ht : f.tree.Sound) (hK : CollisionFree (hashed calls f)) :
    (play calls f).tree.Sound := by
  induction calls generalizing f with
  | nil => exact ht
  | cons c calls ih =>
    have hmove := c.move ht hK.left
    exact ih (hmove.sound ht) hK.right

omit [Sink σ] in
theorem Call.hashed_base (c : Call) (hopen : f.poisoned = false) :
    ∀ x ∈ (c.base f).hashed, x ∈ c.hashed f := by
  rw [c.base_of_open hopen, c.hashed_of_open hopen]
  exact fun x hx => List.mem_append_right _ hx

theorem Call.indexed (c : Call) (ht : f.tree.Sound) (hK : CollisionFree (c.hashed f))
    (hindexed : f.tree.Indexed) : (c.after f).tree.Indexed := by
  cases hopen : f.poisoned with
  | true => exact (c.after_of_poisoned hopen).symm ▸ hindexed
  | false => exact (c.move ht hK).indexed ht hindexed hK (c.hashed_base hopen)

theorem indexed_play (calls : List Call) (ht : f.tree.Sound) (hK : CollisionFree (hashed calls f))
    (hindexed : f.tree.Indexed) : (play calls f).tree.Indexed := by
  induction calls generalizing f with
  | nil => exact hindexed
  | cons c calls ih =>
    exact ih ((c.move ht hK.left).sound ht) hK.right (c.indexed ht hK.left hindexed)

theorem Move.anchor_slot_le {accepted : Block → Prop} (h : Move accepted f u g) (ht : f.tree.Sound) :
    f.tree.anchor.slot.toNat ≤ g.tree.anchor.slot.toNat := by
  cases h with
  | grow hsteps => exact hsteps.anchor ▸ Nat.le_refl _
  | @settle _ path hgrown hpath htree _ _ =>
    rw [htree, ← hgrown.anchor]
    obtain ⟨a, -, -, hsettles⟩ :=
      exists_settles (hgrown.sound ht) hpath (prefix_accepted path f.sink)
    cases hsettles with
    | stays _ heq => exact Nat.le_of_eq (by rw [heq])
    | moves _ _ hslot heq =>
      rw [heq, ForkTree.anchor_reanchor]
      exact Nat.le_of_lt (UInt64.lt_iff_toNat_lt.1 hslot)
  | broke hgrown htree => exact htree ▸ hgrown.anchor ▸ Nat.le_refl _

omit [Sink σ] in
theorem Call.of_mem_accepted {c : Call} {b : Block} (h : b ∈ c.accepted f) :
    f.poisoned = false ∧ f.tree.anchor.slot < b.slot ∧ b.preimage ∈ c.hashed f := by
  cases c with
  | addBlock b' =>
    have hmem : b ∈ match (Frontier.addBlock b').outcome f with
        | .ok _ => [b']
        | .error _ => [] := h
    unfold Operation.outcome EStateM.run at hmem
    cases hopen : f.poisoned with
    | true =>
      rw [Frontier.addBlock, exclusively_of_poisoned _ hopen] at hmem
      cases hmem
    | false =>
      obtain ⟨metrics, heq⟩ := addBlock_eq b' hopen
      rw [heq, ForkTree.insertBlock_eq] at hmem
      by_cases hslot : b'.slot ≤ f.tree.anchor.slot
      · rw [if_pos hslot] at hmem
        cases hmem
      · have hb : b = b' := by
          split at hmem
          · exact List.mem_singleton.1 hmem
          · cases hmem
        subst hb
        refine ⟨rfl, UInt64.not_le.1 hslot, ?_⟩
        have hoffered : (Call.addBlock b).offered f.tree = [b] := if_neg hslot
        rw [Call.hashed_of_open _ hopen, hoffered]
        exact List.mem_append_left _ (List.mem_append_left _ (List.mem_singleton_self _))
  | setHead root => cases h
  | finalize target => cases h
  | finalizeCheckpoint c => cases h

theorem of_mem_accepted (calls : List Call) (ht : f.tree.Sound) (hK : CollisionFree (hashed calls f))
    {b : Block} (hb : b ∈ accepted calls f) :
    f.tree.anchor.slot.toNat < b.slot.toNat ∧ b.preimage ∈ hashed calls f := by
  induction calls generalizing f with
  | nil => cases hb
  | cons c calls ih =>
    rcases List.mem_append.1 hb with hb | hb
    · obtain ⟨-, hslot, hmem⟩ := Call.of_mem_accepted hb
      exact ⟨UInt64.lt_iff_toNat_lt.1 hslot, List.mem_append_left _ hmem⟩
    · have hmove := c.move ht hK.left
      obtain ⟨hslot, hmem⟩ :=
        ih (hmove.sound ht) hK.right hb
      have := hmove.anchor_slot_le ht
      exact ⟨by omega, List.mem_append_right _ hmem⟩

/-- The blocks taken in a run have roots of their own, and none of them the one that the anchor starts
with. -/
theorem distinct_accepted (calls : List Call) (ht : f.tree.Sound) (hopen : f.poisoned = false)
    (hK : CollisionFree (hashed calls f)) :
    Distinct (· ∈ accepted calls f) f.tree.anchor.root := by
  constructor
  · intro b b' hb hb' hroot
    have hheader := hK.header_eq (of_mem_accepted calls ht hK hb).2
      (of_mem_accepted calls ht hK hb').2 hroot
    cases b
    cases b'
    exact congrArg Block.mk hheader
  · intro b hb hroot
    obtain ⟨hslot, hmem⟩ := of_mem_accepted calls ht hK hb
    obtain ⟨entry, hanchor⟩ := ht.anchor_node
    have hold : ∀ x ∈ f.tree.hashed, x ∈ hashed calls f := by
      intro x hx
      cases calls with
      | nil => cases hb
      | cons c calls =>
        apply List.mem_append_left
        rw [c.hashed_of_open hopen]
        exact List.mem_append_left _ (List.mem_append_right _ hx)
    have hsealed := ForkTree.mem_hashed_of_node hanchor entry.state.sealedHeader_mem_hashed
    have hheader := hK.header_eq (hold _ hsealed) hmem ((ht.root_eq hanchor).trans hroot.symm)
    -- The block of the anchor is no later than the anchor, and a block that is taken is.
    have haged := UInt64.le_iff_toNat_le.1 (ht.aged _ _ hanchor)
    rw [← State.slot_sealedHeader entry.state entry.state.root, hheader, ht.slot_eq hanchor] at haged
    omega

/-- After any run of calls that starts from its anchor, with any sink whatever, a frontier has a sound
tree whose state index leads to the node of each state and to nothing else, and each node is as many steps
away from the anchor as slots. -/
theorem sound_of_run (spec : Spec) (sink : σ) {anchor : Snapshot} {specs : Spec → Prop}
    (hanchor : anchor.state.Reached specs) (calls : List Call)
    (hK : CollisionFree (hashed calls (plant anchor sink spec))) :
    (play calls (plant anchor sink spec)).tree.Sound ∧
      (play calls (plant anchor sink spec)).tree.Indexed ∧
      ∀ p ∈ (play calls (plant anchor sink spec)).tree.nodes,
        (play calls (plant anchor sink spec)).tree.climb
          (p.slot.toNat - (play calls (plant anchor sink spec)).tree.anchor.slot.toNat) p =
          some (play calls (plant anchor sink spec)).tree.anchor := by
  have htree := ForkTree.sound_plant spec hanchor.aged
  have hsound := sound_play calls (f := plant anchor sink spec) htree hK
  have hindexed := indexed_play calls (f := plant anchor sink spec) htree hK
    (ForkTree.indexed_plant spec anchor)
  exact ⟨hsound, hindexed, fun p hp => hsound.climb_anchor hp⟩

-- Constants with epochs of one slot and rings of one cell.
def tinySpec : Spec := ⟨1, 1, 1, 0⟩

-- The genesis state of four validators as an anchor.
def tinyAnchor : Snapshot := .ofState tinySpec (.genesis tinySpec 4 .zero)

theorem reached_tiny : tinyAnchor.state.Reached fun spec => spec = tinySpec :=
  .genesis tinySpec 4 .zero rfl

-- A sink that takes everything.
instance : Sink Unit where
  offer _ := pure ()
  prune _ sink := sink

-- A block on top of the anchor, whose state is computed with its state root left open.
def tinyChild (body : Root) : Block :=
  let header : Header := ⟨1, 1, tinyAnchor.position.root, .zero, body⟩
  let post := (tinyAnchor.state.leaveSlot tinySpec).bind fun pre => pre.withHeader tinySpec ⟨header⟩
  ⟨{ header with stateRoot := match post with
    | .ok s => s.root
    | .error _ => .zero }⟩

-- Two blocks that share the empty slot after the anchor.
def tinySiblings : List Block := [tinyChild .zero, tinyChild tinyAnchor.position.root]

-- The first of them, the second, and the empty slot after the first.
def tinyFirst : Position := ⟨1, (tinyChild .zero).root⟩
def tinySecond : Position := ⟨1, (tinyChild tinyAnchor.position.root).root⟩
def tinyTip : Position := ⟨2, (tinyChild .zero).root⟩

/-- A sink that takes or rejects its first offers as its picks tell, and takes all later ones. -/
structure Picker where
  picks : List Bool

namespace Picker

def offer (_ : Snapshot) : Operation Rejection Picker Unit := fun sink =>
  match sink.picks with
  | [] => .ok () sink
  | true :: picks => .ok () ⟨picks⟩
  | false :: picks => .error (.refused (.other "not yet")) ⟨picks⟩

instance : Sink Picker := ⟨offer, fun _ sink => sink⟩

theorem steady : Sink.Steady Picker := by
  intro entry sink fault sink' hbroke
  obtain ⟨picks⟩ := sink
  cases picks with
  | nil => cases hbroke
  | cons pick picks => cases pick <;> cases hbroke

end Picker

-- The siblings are added, and the first offer on the way to the tip is rejected: all of them are held.
def tinyFork : List Call := tinySiblings.map .addBlock ++ [.finalizeCheckpoint ⟨2, tinyTip.root⟩]

-- A sink that takes its second offer, and rejects the one before and the one after.
def tinyPicker : Picker := ⟨[false, true, false]⟩

/-- Finalizing the tip hands over the block before it and prunes its sibling; a sink that takes the block
and then rejects the tip twice is offered the tip alone from then on. -/
theorem evaluated_fork :
    CollisionFree (hashed (tinyFork ++ [.finalize tinyTip]) (plant tinyAnchor tinyPicker tinySpec)) ∧
      (play tinyFork (plant tinyAnchor tinyPicker tinySpec)).tree.anchor = tinyAnchor.position ∧
      (play tinyFork (plant tinyAnchor tinyPicker tinySpec)).tree.nodes.keys =
        [tinyAnchor.position, ⟨1, tinyAnchor.position.root⟩, tinySecond, tinyFirst, tinyTip] ∧
      (play tinyFork (plant tinyAnchor tinyPicker tinySpec)).tree.climb 1 tinyTip = some tinyFirst ∧
      ((Call.finalize tinyTip).outcome (play tinyFork (plant tinyAnchor tinyPicker tinySpec))).failure? =
        some (.refused (.sink tinyTip (.other "not yet"))) ∧
      (play (tinyFork ++ [.finalize tinyTip]) (plant tinyAnchor tinyPicker tinySpec)).tree.anchor =
        tinyFirst ∧
      (play (tinyFork ++ [.finalize tinyTip]) (plant tinyAnchor tinyPicker tinySpec)).tree.nodes.keys =
        [tinyFirst, tinyTip] ∧
      ((finalize tinyTip).outcome (play (List.replicate 2 (.finalize tinyTip))
        { play tinyFork (plant tinyAnchor tinyPicker tinySpec) with
          sink := Picker.mk [true, false, false] })).toOption = some 1 := by
  decide +kernel

theorem tinyTip_mem : tinyTip ∈ (play tinyFork (plant tinyAnchor tinyPicker tinySpec)).tree.nodes := by
  obtain ⟨-, -, hkeys, -⟩ := evaluated_fork
  rw [← Std.ExtTreeMap.mem_keys, hkeys]
  simp

theorem sound_of_run_tiny :
    CollisionFree (hashed tinyFork (plant tinyAnchor tinyPicker tinySpec)) ∧
      (play tinyFork (plant tinyAnchor tinyPicker tinySpec)).tree.nodes.keys =
        [tinyAnchor.position, ⟨1, tinyAnchor.position.root⟩, tinySecond, tinyFirst, tinyTip] ∧
      (play tinyFork (plant tinyAnchor tinyPicker tinySpec)).tree.Sound ∧
      (play tinyFork (plant tinyAnchor tinyPicker tinySpec)).tree.Indexed ∧
      (play tinyFork (plant tinyAnchor tinyPicker tinySpec)).tree.climb 2 tinyTip =
        some tinyAnchor.position := by
  obtain ⟨hK, hanchor, hkeys, -⟩ := evaluated_fork
  rw [hashed_append] at hK
  obtain ⟨hsound, hindexed, hclimb⟩ := sound_of_run tinySpec tinyPicker reached_tiny tinyFork hK.left
  have htip := hclimb tinyTip tinyTip_mem
  rw [hanchor] at htip
  exact ⟨hK.left, hkeys, hsound, hindexed, htip⟩

end Frontier

end BeaconHistory
