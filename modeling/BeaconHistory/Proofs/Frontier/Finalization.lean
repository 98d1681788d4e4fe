import BeaconHistory.Proofs.ForkTree.Index
import BeaconHistory.Proofs.ForkTree.Part
import BeaconHistory.Proofs.ForkTree.Steady
import BeaconHistory.Proofs.Frontier.Changes

/-!
# Frontier.Finalization — how a finalization ends

A finalization hands the branch of its target to the sink and moves the anchor to the last entry that
the sink took.  Main statement: all the ways in which it ends, each with its answer and what it leaves
behind.
-/

namespace BeaconHistory.Frontier

variable {σ : Type} [Sink σ] {f g : Frontier σ}

/-! ## 1. Handing over -/

theorem prefix_accepted (path : List Snapshot) (sink : σ) : (handOver path sink).accepted <+: path := by
  induction path generalizing sink with
  | nil => exact List.nil_prefix
  | cons entry path ih =>
    unfold handOver
    cases Sink.offer entry sink with
    | ok _ sink => exact List.prefix_cons_iff.2 (Or.inr ⟨_, rfl, ih sink⟩)
    | error failure sink => exact List.nil_prefix

theorem accepted_eq_of_stopped (path : List Snapshot) (sink : σ)
    (h : (handOver path sink).stopped = none) : (handOver path sink).accepted = path := by
  induction path generalizing sink with
  | nil => rfl
  | cons entry path ih =>
    unfold handOver at h ⊢
    cases hoffer : Sink.offer entry sink with
    | ok _ sink =>
      rw [hoffer] at h
      exact congrArg (List.cons entry) (ih sink h)
    | error failure sink =>
      rw [hoffer] at h
      cases h

-- Whatever each offer keeps of a sink, a hand-over keeps.
theorem handOver_keeps {keeps : σ → Prop} {path : List Snapshot}
    (hoffer : ∀ entry ∈ path, ∀ sink, keeps sink → keeps (Operation.left (Sink.offer entry sink)))
    {sink : σ} (h : keeps sink) : keeps (handOver path sink).sink := by
  induction path generalizing sink with
  | nil => exact h
  | cons entry path ih =>
    have hnext := hoffer entry List.mem_cons_self sink h
    unfold handOver
    cases hresult : Sink.offer entry sink with
    | ok _ sink' =>
      rw [hresult] at hnext
      exact ih (fun entry hentry => hoffer entry (List.mem_cons_of_mem _ hentry)) hnext
    | error e sink' =>
      rw [hresult] at hnext
      exact hnext

/-- Where the anchor is after the sink took some entries: where it was, or at the last one of them. -/
inductive Settles (t : ForkTree) (taken : List Snapshot) : Position → Prop where
  | stays (hnone : taken = []) (htree : settled taken t = t) (hout : outcast taken t = []) :
      Settles t taken t.anchor
  | moves {a : Position} {node : ForkTree.Node} (hnode : t.nodes[a]? = some node)
      (hlast : taken.getLast? = some node.entry) (hslot : t.anchor.slot < a.slot)
      (htree : settled taken t = (t.reanchor a).1) (hout : outcast taken t = (t.reanchor a).2) :
      Settles t taken a

/-- The entries that the sink takes are the branch of the position where the anchor settles. -/
theorem exists_settles {t : ForkTree} (ht : t.Sound) {path taken : List Snapshot} {target : Position}
    (hpath : t.Branch path target) (htaken : taken <+: path) :
    ∃ a, t.Branch taken a ∧ t.Descends target a ∧ Settles t taken a := by
  obtain ⟨a, hbranch, hdescends⟩ := hpath.of_prefix htaken
  refine ⟨a, hbranch, hdescends, ?_⟩
  cases hbranch with
  | anchor => exact .stays rfl rfl rfl
  | @child before _ _ node _ hnode hne _ =>
    have hlast : (before ++ [node.entry]).getLast? = some node.entry := List.getLast?_concat
    refine .moves hnode hlast (ht.linked a node hnode hne).1 ?_ ?_
    · unfold settled
      rw [hlast, ← ht.stored a node hnode]
    · unfold outcast
      rw [hlast, ← ht.stored a node hnode]

section

variable {t : ForkTree} {path taken : List Snapshot} {target : Position}

-- If the whole branch is taken, the anchor is its end.
theorem settled_whole (ht : t.Sound) (hpath : t.Branch path target) (hne : target ≠ t.anchor) :
    settled path t = (t.reanchor target).1 ∧ outcast path t = (t.reanchor target).2 := by
  obtain ⟨node, hnode, hlast⟩ := hpath.getLast? hne
  unfold settled outcast
  rw [hlast]
  dsimp only
  rw [ht.stored target node hnode]
  exact ⟨rfl, rfl⟩

theorem Settles.anchor {a : Position} (h : Settles t taken a) : (settled taken t).anchor = a := by
  cases h with
  | stays _ htree => rw [htree]
  | moves _ _ _ htree => rw [htree, ForkTree.anchor_reanchor]

-- The children of the new anchor stay as they are.
theorem Settles.node_of_parent {a q : Position} (h : Settles t taken a) (ht : t.Sound)
    {node : ForkTree.Node} (hnode : t.nodes[q]? = some node) (hparent : node.parent = some a) :
    (settled taken t).nodes[q]? = some node := by
  cases h with
  | stays _ htree =>
    rw [htree]
    exact hnode
  | moves hanchor _ _ htree =>
    have hdescends := (ForkTree.descends_refl t a).step (ForkTree.parent?_of_node hnode hparent)
    have hother : q ≠ a := by
      rintro rfl
      have hslot := (ht.follows hnode hparent).slot
      omega
    rw [htree]
    exact (ForkTree.nodes_reanchor_iff ht (Lookup.mem_of_eq_some hanchor)).2
      ⟨node, hnode, hdescends, (if_neg hother).symm⟩

theorem sound_settled (ht : t.Sound) (hpath : t.Branch path target) (htaken : taken <+: path) :
    (settled taken t).Sound := by
  obtain ⟨a, -, -, hsettles⟩ := exists_settles ht hpath htaken
  cases hsettles with
  | stays _ htree =>
    rw [htree]
    exact ht
  | moves hnode _ hslot htree =>
    exact htree ▸ ht.reanchor (Lookup.mem_of_eq_some hnode) hslot

theorem indexed_settled (ht : t.Sound) (hindexed : t.Indexed) {K : List (List UInt8)}
    (hK : CollisionFree K) (hhashed : ∀ x ∈ t.hashed, x ∈ K) (hpath : t.Branch path target)
    (htaken : taken <+: path) : (settled taken t).Indexed := by
  obtain ⟨a, -, -, hsettles⟩ := exists_settles ht hpath htaken
  cases hsettles with
  | stays _ htree =>
    rw [htree]
    exact hindexed
  | moves hnode _ _ htree =>
    exact htree ▸ hindexed.reanchor ht hK hhashed (Lookup.mem_of_eq_some hnode)

end

/-! ## 2. The ways to end -/

/-- How the finalization of `target` ends, once the tree has grown to `u`. -/
inductive Finalized (f : Frontier σ) (u : ForkTree) (target : Position) :
    EStateM.Result (Failure Error) (Frontier σ) Nat → Prop where
  -- The target precedes the anchor.
  | before (hslot : target.slot < f.tree.anchor.slot) : Finalized f u target (.ok 0 f)
  -- The target is the anchor.
  | anchor (heq : target = f.tree.anchor) : Finalized f u target (.ok 0 f)
  -- Nothing is handed over; empty slots may have been added.
  | refused {e : Error} {g : Frontier σ} (htree : g.tree = u) (hsink : g.sink = f.sink)
      (hopen : g.poisoned = false) (he : ∀ p rejection, e ≠ .sink p rejection) :
      Finalized f u target (.error (.refused e) g)
  -- The sink takes all.
  | whole {g : Frontier σ} {path : List Snapshot} (hslot : f.tree.anchor.slot < target.slot)
      (hpath : u.Branch path target) (hstopped : (handOver path f.sink).stopped = none)
      (htree : g.tree = (u.reanchor target).1)
      (hsink : g.sink = pruneAll (u.reanchor target).2 (handOver path f.sink).sink)
      (hopen : g.poisoned = false) : Finalized f u target (.ok path.length g)
  -- The sink rejects an entry.
  | part {g : Frontier σ} {path : List Snapshot} {entry : Snapshot} {rejection : Rejection}
      (hslot : f.tree.anchor.slot < target.slot) (hpath : u.Branch path target)
      (hstopped : (handOver path f.sink).stopped = some (entry, .refused rejection))
      (htree : g.tree = settled (handOver path f.sink).accepted u)
      (hsink : g.sink =
        pruneAll (outcast (handOver path f.sink).accepted u) (handOver path f.sink).sink)
      (hopen : g.poisoned = false) :
      Finalized f u target (.error (.refused (.sink entry.position rejection)) g)
  -- The constants cannot divide, or the sink breaks off.
  | broke {g : Frontier σ} {fault : Fault} (htree : g.tree = u) (hpoisoned : g.poisoned = true)
      (hcause : (g.sink = f.sink ∧ f.tree.spec.validate ≠ .ok ()) ∨
        ∃ path entry, (handOver path f.sink).stopped = some (entry, .broke fault)) :
      Finalized f u target (.error (.broke fault) g)

theorem finalized_finalizePath {u : ForkTree} (hopen : f.poisoned = false) (hu : u.Sound)
    {target : Position} (hslot : f.tree.anchor.slot < target.slot) :
    Finalized f u target (closing (finalizePath target { f with tree := u })) := by
  -- The walk finds a path exactly from the nodes, and the sink decides how much of it is taken.
  by_cases htarget : target ∈ u.nodes
  · obtain ⟨path, hpath⟩ := hu.exists_pathTo htarget
    obtain ⟨hbranch, -⟩ := ForkTree.branch_of_pathTo hpath
    cases hstopped : (handOver path f.sink).stopped with
    | none =>
      obtain ⟨metrics, heq⟩ := finalizePath_of_taken (f := { f with tree := u }) hpath hstopped
      rw [heq]
      exact .whole hslot hbranch hstopped rfl rfl hopen
    | some stop =>
      obtain ⟨entry, failure⟩ := stop
      cases failure with
      | refused rejection =>
        obtain ⟨metrics, heq⟩ := finalizePath_of_refused (f := { f with tree := u }) hpath hstopped
        rw [heq]
        exact .part hslot hbranch hstopped rfl rfl hopen
      | broke fault =>
        rw [finalizePath_of_broke (f := { f with tree := u }) hpath hstopped]
        exact .broke rfl rfl (Or.inr ⟨path, entry, hstopped⟩)
  · rw [finalizePath_of_no_path (f := { f with tree := u }) (ForkTree.pathTo_eq_error htarget)]
    exact .refused rfl rfl hopen fun _ _ h => (by cases h)

-- The tree that a finalization acts on: one at or before the anchor does not grow it.
def grownFor (growth : ForkTree.Growth Unit) (target : Position) (t : ForkTree) : ForkTree :=
  if target.slot ≤ t.anchor.slot then t else growth.after t

theorem finalized_finalizeAfter (ht : f.tree.Sound) (hopen : f.poisoned = false) {target : Position}
    {growth : ForkTree.Growth Unit} (hfails : growth.Fails (ForkTree.GrowthFailure f.tree.spec) f.tree)
    (hgrowth : ForkTree.Sprouting f.tree (grownFor growth target f.tree)) :
    Finalized f (grownFor growth target f.tree) target (finalizeAfter growth target f) := by
  rw [finalizeAfter_eq growth target hopen]
  unfold grownFor at hgrowth ⊢
  by_cases hslot : f.tree.anchor.slot < target.slot
  · rw [if_neg (UInt64.not_le.2 hslot)] at hgrowth ⊢
    rw [isFinalized_eq_false_iff.2 hslot]
    dsimp only
    rw [Operation.after_eq] at hgrowth ⊢
    cases hu : growth f.tree with
    | ok a u =>
      rw [hu] at hgrowth
      exact finalized_finalizePath hopen (hgrowth.sound ht) hslot
    | error e u =>
      have hfailure := hfails e u hu
      cases e with
      | refused e =>
        exact .refused rfl rfl hopen fun p rejection h => hfailure.not_sink p rejection (h ▸ rfl)
      | broke fault =>
        exact .broke rfl rfl (Or.inl ⟨rfl, fun hspec => absurd rfl (hfailure.not_broke hspec fault)⟩)
  · rw [if_pos (UInt64.not_lt.1 hslot)]
    unfold isFinalized
    rw [if_neg hslot]
    by_cases hconflict : target.slot = f.tree.anchor.slot ∧ target ≠ f.tree.anchor
    · rw [if_pos hconflict]
      exact .refused rfl rfl hopen fun _ _ h => (by cases h)
    · rw [if_neg hconflict]
      by_cases heq : target.slot = f.tree.anchor.slot
      · exact .anchor (Decidable.not_not.1 fun hne => hconflict ⟨heq, hne⟩)
      · refine .before (UInt64.lt_of_le_of_ne (UInt64.not_lt.1 hslot) heq)

/-! ## 3. What a finalization does to the sink -/

section

variable {keeps : σ → Prop}
  (hoffer : ∀ entry sink, keeps sink → keeps (Operation.left (Sink.offer entry sink)))
  (hprune : ∀ entry sink, keeps sink → keeps (Sink.prune entry sink))

include hprune

theorem keeps_pruneAll (entries : List Snapshot) {sink : σ} (h : keeps sink) :
    keeps (pruneAll entries sink) := by
  induction entries generalizing sink with
  | nil => exact h
  | cons entry entries ih => exact ih (hprune entry sink h)

theorem keeps_reanchor (anchor : Position) :
    (reanchor anchor : Change σ Unit).Keeps fun f => keeps f.sink :=
  fun _ hf => keeps_pruneAll hprune _ hf

theorem keeps_reanchorAfter (accepted : List Snapshot) :
    (reanchorAfter accepted : Change σ Unit).Keeps fun f => keeps f.sink := by
  unfold reanchorAfter
  cases accepted.getLast? with
  | none => exact Operation.keeps_pure ()
  | some last => exact Operation.Keeps.bind (fun _ hf => hf) fun _ => keeps_reanchor hprune last.position

include hoffer

theorem keeps_sink_finalizePath (target : Position) :
    (finalizePath target : Change σ Nat).Keeps fun f => keeps f.sink := by
  unfold finalizePath
  refine (Operation.keeps_ofOutcome _).bind fun path => Operation.Keeps.bind ?_ fun handed => ?_
  · exact fun f hf => handOver_keeps (fun entry _ => hoffer entry) hf
  · cases handed.stopped with
    | none =>
      refine Operation.Keeps.bind (fun _ hf => hf) fun _ => ?_
      exact (keeps_reanchor hprune target).bind fun _ => Operation.keeps_pure path.length
    | some stopped =>
      obtain ⟨entry, failure⟩ := stopped
      cases failure with
      | broke fault => exact fun _ hf => hf
      | refused rejection =>
        refine Operation.Keeps.bind (fun _ hf => hf) fun _ => ?_
        exact (keeps_reanchorAfter hprune handed.accepted).bind fun _ => fun _ hf => hf

theorem keeps_sink_finalizeAfter (growth : ForkTree.Growth Unit) (target : Position) :
    (finalizeAfter growth target : Change σ Nat).Keeps fun f => keeps f.sink := by
  refine keeps_exclusively (fun _ hf => hf) ((Operation.keeps_ofOutcome _).bind fun finalized => ?_)
  cases finalized with
  | true => exact Operation.keeps_pure 0
  | false =>
    refine (keeps_onTree fun _ _ hf => hf).bind fun _ => ?_
    exact keeps_sink_finalizePath hoffer hprune target

end

end BeaconHistory.Frontier
