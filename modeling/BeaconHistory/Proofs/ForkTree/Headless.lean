import BeaconHistory.ForkTree.Growth
import BeaconHistory.ForkTree.Pruning
import BeaconHistory.Proofs.Parallel

/-!
# ForkTree.Headless — what does not read the head

The head is part of the tree, and a move of the anchor may move it along.  Main statement: two trees that
differ in their heads at most grow alike, and move their anchor to the same position alike.
-/

namespace BeaconHistory.ForkTree

variable {t u : ForkTree} {p : Position}

/-- The trees are equal but for their heads. -/
def Alike (t u : ForkTree) : Prop := ∃ p, u = { t with head := p }

theorem Alike.refl (t : ForkTree) : t.Alike t := ⟨t.head, rfl⟩

theorem Alike.symm (h : t.Alike u) : u.Alike t := by
  obtain ⟨p, rfl⟩ := h
  exact ⟨t.head, rfl⟩

theorem Alike.trans {w : ForkTree} (h : t.Alike u) (h' : u.Alike w) : t.Alike w := by
  obtain ⟨p, rfl⟩ := h
  obtain ⟨q, rfl⟩ := h'
  exact ⟨q, rfl⟩

theorem alike_withHead (t : ForkTree) (p : Position) : t.Alike { t with head := p } := ⟨p, rfl⟩

theorem Alike.insert (h : t.Alike u) (entry : Snapshot) (parent : Position) :
    (t.insert entry parent).Alike (u.insert entry parent) := by
  obtain ⟨p, rfl⟩ := h
  exact ⟨p, rfl⟩

/-! ## 1. Walks -/

theorem climb_withHead (t : ForkTree) (p : Position) (n : Nat) (q : Position) :
    climb { t with head := p } n q = t.climb n q := by
  induction n generalizing q with
  | zero => rfl
  | succ n ih =>
    show (t.parent? q).bind (climb { t with head := p } n) = (t.parent? q).bind (t.climb n)
    rw [funext ih]

theorem lastOfRun_withHead (t : ForkTree) (p : Position) (n : Nat) (q : Position) :
    lastOfRun { t with head := p } n q = t.lastOfRun n q := by
  induction n generalizing q with
  | zero => rfl
  | succ n ih =>
    show (if t.nodes.contains (following q) then lastOfRun { t with head := p } n (following q) else q) = _
    rw [ih]
    rfl

theorem lineage_withHead (t : ForkTree) (p : Position) (n : Nat) (q : Position) :
    lineage { t with head := p } n q = t.lineage n q := by
  induction n generalizing q with
  | zero => rfl
  | succ n ih =>
    unfold lineage
    rw [show parent? { t with head := p } q = t.parent? q from rfl]
    cases t.parent? q with
    | none => rfl
    | some parent => exact congrArg (q :: ·) (ih parent)

theorem pathFrom_withHead (t : ForkTree) (p target : Position) (n : Nat) (q : Position)
    (later : List Snapshot) :
    pathFrom { t with head := p } target n q later = t.pathFrom target n q later := by
  induction n generalizing q later with
  | zero =>
    unfold pathFrom
    rfl
  | succ n ih =>
    unfold pathFrom
    dsimp only
    cases t.nodes[q]? with
    | none => rfl
    | some node =>
      dsimp only
      cases node.parent with
      | none => rfl
      | some parent =>
        dsimp only
        rw [ih]

/-! ## 2. Answers -/

theorem Alike.closest (h : t.Alike u) (root : Root) (slot : UInt64) :
    t.closest root slot = u.closest root slot := by
  obtain ⟨p, rfl⟩ := h
  unfold ForkTree.closest
  simp only [lastOfRun_withHead]
  rfl

theorem Alike.ancestry (h : t.Alike u) (a b : Root) : t.ancestry a b = u.ancestry a b := by
  obtain ⟨p, rfl⟩ := h
  unfold ForkTree.ancestry
  simp only [climb_withHead]

theorem Alike.pathTo (h : t.Alike u) (target : Position) : t.pathTo target = u.pathTo target := by
  obtain ⟨p, rfl⟩ := h
  unfold ForkTree.pathTo
  rw [pathFrom_withHead t p]

/-! ## 3. Growth -/

theorem parallel_extendOnce (tip : Position) :
    Operation.Parallel Alike (extendOnce tip) (extendOnce tip) := by
  intro t u h
  unfold extendOnce
  obtain ⟨p, rfl⟩ := h
  dsimp only
  by_cases hheld : t.nodes.contains (following tip) = true
  · rw [if_pos hheld, if_pos hheld]
    exact .ok (t.alike_withHead p)
  · rw [if_neg hheld, if_neg hheld, show emptyAfter tip { t with head := p } = emptyAfter tip t from rfl]
    cases emptyAfter tip t with
    | ok entry => exact .ok ((t.alike_withHead p).insert entry tip)
    | error e => exact .error (t.alike_withHead p)

theorem parallel_extend (n : Nat) (tip : Position) :
    Operation.Parallel Alike (extend n tip) (extend n tip) := by
  induction n generalizing tip with
  | zero => exact Operation.parallel_pure tip
  | succ n ih => exact (parallel_extendOnce tip).bind ih

theorem parallel_insertOn (b : Block) (parent : Position) :
    Operation.Parallel Alike (insertOn b parent) (insertOn b parent) := by
  refine (parallel_extend _ parent).bind fun tip => (parallel_extend _ tip).bind fun pre => ?_
  refine Operation.Parallel.bind (Operation.parallel_ofOutcome fun t u h => ?_) fun post =>
    (Operation.parallel_modify fun t u h => h.insert post tip).bind fun _ => Operation.parallel_pure post
  obtain ⟨p, rfl⟩ := h
  rfl

theorem parallel_insertBlock (b : Block) :
    Operation.Parallel Alike (insertBlock b) (insertBlock b) := by
  refine Operation.Parallel.get_bind fun t u h => ?_
  obtain ⟨p, rfl⟩ := h
  have h := t.alike_withHead p
  dsimp only
  rw [show block? { t with head := p } b.root = t.block? b.root from rfl]
  by_cases hslot : b.slot ≤ t.anchor.slot
  · rw [if_pos hslot]
    exact Operation.parallel_refuse _ _ _ h
  · rw [if_neg hslot]
    cases t.block? b.root with
    | some entry => exact Operation.parallel_pure entry _ _ h
    | none =>
      cases t.blocks[b.parentRoot]? with
      | none => exact Operation.parallel_refuse _ _ _ h
      | some parent =>
        dsimp only
        by_cases hparent : b.slot ≤ parent.slot
        · rw [if_pos hparent]
          exact Operation.parallel_refuse _ _ _ h
        · rw [if_neg hparent]
          exact parallel_insertOn b parent _ _ h

theorem parallel_reachSlot (root : Root) (slot : UInt64) :
    Operation.Parallel Alike (reachSlot root slot) (reachSlot root slot) := by
  refine Operation.Parallel.get_bind fun t u h => ?_
  obtain ⟨p, rfl⟩ := h
  have h := t.alike_withHead p
  dsimp only
  cases t.blocks[root]? with
  | none => exact Operation.parallel_refuse _ _ _ h
  | some q => exact (parallel_extend _ q).bind (fun _ => Operation.parallel_pure ()) _ _ h

/-! ## 4. Moving the anchor -/

theorem foldl_forget_withHead (t : ForkTree) (p : Position) (items : List (Position × Node)) :
    items.foldl forget { t with head := p } = { items.foldl forget t with head := p } := by
  induction items generalizing t with
  | nil => rfl
  | cons item items ih => exact ih (t.forget item)

/-- Moving the anchor drops the same entries, wherever the head is. -/
theorem Alike.reanchor (h : t.Alike u) (a : Position) :
    (t.reanchor a).1.Alike (u.reanchor a).1 ∧ (t.reanchor a).2 = (u.reanchor a).2 := by
  obtain ⟨p, rfl⟩ := h
  unfold ForkTree.reanchor
  simp only [foldl_forget_withHead, lineage_withHead]
  exact ⟨⟨_, rfl⟩, rfl⟩

end BeaconHistory.ForkTree
