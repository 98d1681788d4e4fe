import BeaconHistory.ForkTree.Pruning
import BeaconHistory.Proofs.ForkTree.Sound

/-!
# ForkTree.Descent — walks from a node towards the anchor

Descent is told by walks of any length and, in a sound tree, decided by the walk as long as the slots
are apart.  The path that finalization hands over is the branch from the anchor to its target.
Main statements: the path to a position is its branch, and in a sound tree every node has one.
-/

namespace BeaconHistory.ForkTree

variable {t : ForkTree}

/-- Whether some number of steps to the parent leads from `p` to `a`. -/
def Descends (t : ForkTree) (p a : Position) : Prop := ∃ n, t.climb n p = some a

theorem descends_refl (t : ForkTree) (p : Position) : t.Descends p p := ⟨0, rfl⟩

theorem climb_succ (t : ForkTree) (n : Nat) (p : Position) :
    t.climb (n + 1) p = (t.parent? p).bind (t.climb n) := rfl

theorem parent?_of_node {p q : Position} {node : Node} (hnode : t.nodes[p]? = some node)
    (hparent : node.parent = some q) : t.parent? p = some q := by
  unfold parent?
  rw [hnode]
  exact hparent

theorem climb_add (t : ForkTree) (m n : Nat) (p : Position) :
    t.climb (m + n) p = (t.climb m p).bind (t.climb n) := by
  induction m generalizing p with
  | zero => rw [Nat.zero_add]; rfl
  | succ m ih =>
    rw [Nat.succ_add, climb_succ, climb_succ, Option.bind_assoc]
    congr 1
    exact funext ih

theorem Descends.trans {p q r : Position} (hpq : t.Descends p q) (hqr : t.Descends q r) :
    t.Descends p r := by
  obtain ⟨m, hm⟩ := hpq
  obtain ⟨n, hn⟩ := hqr
  exact ⟨m + n, by rw [climb_add, hm, Option.bind_some, hn]⟩

theorem Descends.step {p q a : Position} (hparent : t.parent? p = some q) (h : t.Descends q a) :
    t.Descends p a := by
  obtain ⟨n, hn⟩ := h
  exact ⟨n + 1, by rw [climb_succ, hparent, Option.bind_some, hn]⟩

theorem descends_iff_of_parent {p q a : Position} (hparent : t.parent? p = some q) (hne : p ≠ a) :
    t.Descends p a ↔ t.Descends q a := by
  constructor
  · rintro ⟨n, hn⟩
    cases n with
    | zero => exact absurd (Option.some.inj hn) hne
    | succ n =>
      rw [climb_succ, hparent, Option.bind_some] at hn
      exact ⟨n, hn⟩
  · exact .step hparent

namespace Sound

theorem exists_parent (ht : t.Sound) {p : Position} {node : Node} (hnode : t.nodes[p]? = some node)
    (hne : p ≠ t.anchor) :
    ∃ q, q ∈ t.nodes ∧ t.parent? p = some q ∧ node.Follows p q := by
  obtain ⟨-, q, hq, hfollows⟩ := ht.linked p node hnode hne
  exact ⟨q, hq, hfollows.parent?_eq hnode, hfollows⟩

-- The node that an entry follows is known by its slot and the root that the entry links to.
theorem parent?_eq (ht : t.Sound) {p tip : Position} {node : Node} (hnode : t.nodes[p]? = some node)
    (hne : p ≠ t.anchor) (hslot : tip.slot.toNat + 1 = p.slot.toNat)
    (hroot : node.entry.summary.linksTo = tip.root) : t.parent? p = some tip := by
  obtain ⟨q, -, hparent, hfollows⟩ := ht.exists_parent hnode hne
  have hqSlot := hfollows.slot
  have hq : q = tip := by
    cases q
    cases tip
    simp only at hqSlot hslot
    simp only [Position.mk.injEq]
    exact ⟨UInt64.toNat_inj.1 (by omega), hfollows.root.trans hroot⟩
  rw [hparent, hq]

theorem parent?_anchor (ht : t.Sound) : t.parent? t.anchor = none := by
  obtain ⟨entry, hentry⟩ := ht.anchor_node
  unfold parent?
  rw [hentry]
  rfl

-- A walk stays on nodes and takes one slot a step.
theorem climb_slot (ht : t.Sound) {n : Nat} {p q : Position} (hp : p ∈ t.nodes)
    (h : t.climb n p = some q) : q ∈ t.nodes ∧ q.slot.toNat + n = p.slot.toNat := by
  induction n generalizing p with
  | zero =>
    cases h
    exact ⟨hp, rfl⟩
  | succ n ih =>
    obtain ⟨node, hnode⟩ := (Lookup.mem_iff_exists _ _).1 hp
    rw [climb_succ] at h
    by_cases hne : p = t.anchor
    · rw [hne, ht.parent?_anchor] at h
      cases h
    · obtain ⟨r, hr, hparent, hfollows⟩ := ht.exists_parent hnode hne
      rw [hparent, Option.bind_some] at h
      obtain ⟨hq, hslot⟩ := ih hr h
      have := hfollows.slot
      exact ⟨hq, by omega⟩

-- Descent is decided by the walk as long as the slots are apart.
theorem descends_iff (ht : t.Sound) {p a : Position} (hp : p ∈ t.nodes) :
    t.Descends p a ↔
      a.slot.toNat ≤ p.slot.toNat ∧ t.climb (p.slot.toNat - a.slot.toNat) p = some a := by
  constructor
  · rintro ⟨n, hn⟩
    obtain ⟨-, hslot⟩ := ht.climb_slot hp hn
    have hsteps : p.slot.toNat - a.slot.toNat = n := by omega
    rw [hsteps]
    exact ⟨by omega, hn⟩
  · rintro ⟨-, h⟩
    exact ⟨_, h⟩

theorem slot_lt_of_descends (ht : t.Sound) {p a : Position} (hp : p ∈ t.nodes)
    (h : t.Descends p a) (hne : p ≠ a) : a.slot < p.slot := by
  obtain ⟨n, hn⟩ := h
  obtain ⟨-, hslot⟩ := ht.climb_slot hp hn
  rw [UInt64.lt_iff_toNat_lt]
  cases n with
  | zero => exact absurd (Option.some.inj hn) hne
  | succ n => omega

end Sound

/-! ## Branches -/

/-- `entries` are those after the anchor on the way to `p`, by increasing slot. -/
inductive Branch (t : ForkTree) : List Snapshot → Position → Prop where
  | anchor : Branch t [] t.anchor
  | child {entries : List Snapshot} {p q : Position} {node : Node} (hbefore : Branch t entries q)
      (hnode : t.nodes[p]? = some node) (hne : p ≠ t.anchor) (hparent : node.parent = some q) :
      Branch t (entries ++ [node.entry]) p

section

variable {entries : List Snapshot} {p : Position}

theorem Branch.getLast? (h : t.Branch entries p) (hne : p ≠ t.anchor) :
    ∃ node, t.nodes[p]? = some node ∧ entries.getLast? = some node.entry := by
  cases h with
  | anchor => exact absurd rfl hne
  | child _ hnode _ _ => exact ⟨_, hnode, List.getLast?_concat⟩

-- The entries of a branch are those of nodes after the anchor that its end descends from.
theorem Branch.exists_node (h : t.Branch entries p) {e : Snapshot} (he : e ∈ entries) :
    ∃ q node, t.Descends p q ∧ t.nodes[q]? = some node ∧ q ≠ t.anchor ∧ node.entry = e := by
  induction h with
  | anchor => cases he
  | @child before p q node _ hnode hne hparent ih =>
    rcases List.mem_append.1 he with he | he
    · obtain ⟨r, node', hdescends, hrest⟩ := ih he
      exact ⟨r, node', hdescends.step (parent?_of_node hnode hparent), hrest⟩
    · exact ⟨p, node, descends_refl t p, hnode, hne, (List.mem_singleton.1 he).symm⟩

theorem Sound.mem_of_descends (ht : t.Sound) (h : t.Branch entries p) {q : Position} {node : Node}
    (hq : t.Descends p q) (hnode : t.nodes[q]? = some node) (hne : q ≠ t.anchor) :
    node.entry ∈ entries := by
  induction h with
  | anchor =>
    -- No step leads on from the anchor.
    obtain ⟨n, hn⟩ := hq
    cases n with
    | zero => exact absurd (Option.some.inj hn).symm hne
    | succ n =>
      rw [climb_succ, ht.parent?_anchor] at hn
      cases hn
  | @child before p r node' _ hnode' _ hparent ih =>
    by_cases hp : p = q
    · rw [hp, hnode] at hnode'
      cases hnode'
      exact List.mem_append_right _ (List.mem_singleton_self _)
    · have hlink := parent?_of_node hnode' hparent
      exact List.mem_append_left _ (ih ((descends_iff_of_parent hlink hp).1 hq))

end

theorem branch_of_pathFrom {target p : Position} {n : Nat} {later path : List Snapshot}
    (h : t.pathFrom target n p later = .ok path) :
    ∃ front, t.Branch front p ∧ path = front ++ later ∧ front.length ≤ n := by
  induction n generalizing p later with
  | zero =>
    unfold pathFrom at h
    split at h
    · next heq => cases h; exact ⟨[], heq ▸ .anchor, rfl, Nat.le_refl 0⟩
    · split at h <;> cases h
  | succ n ih =>
    unfold pathFrom at h
    split at h
    · next heq => cases h; exact ⟨[], heq ▸ .anchor, rfl, Nat.zero_le _⟩
    -- The walk goes on at the parent, with the entry put in front of the later ones.
    next hne =>
    split at h
    · cases h
    next node hnode =>
    split at h
    · next m q hm hparent =>
      cases hm
      obtain ⟨front, hfront, hpath, hlength⟩ := ih h
      refine ⟨front ++ [node.entry], .child hfront hnode hne hparent, ?_, ?_⟩
      · rw [hpath, List.append_assoc]
        rfl
      · rw [List.length_append]
        exact Nat.succ_le_succ hlength
    · cases h

theorem branch_of_pathTo {target : Position} {path : List Snapshot} (h : t.pathTo target = .ok path) :
    t.Branch path target ∧ path.length ≤ target.slot.toNat - t.anchor.slot.toNat := by
  unfold pathTo at h
  split at h
  · obtain ⟨front, hfront, hpath, hlength⟩ := branch_of_pathFrom h
    rw [List.append_nil] at hpath
    exact hpath ▸ ⟨hfront, hlength⟩
  · cases h

theorem pathTo_eq_error {target : Position} (h : target ∉ t.nodes) :
    t.pathTo target = .error (.unknownEntry target) := by
  unfold pathTo
  rw [if_neg (mt Std.ExtTreeMap.contains_iff_mem.1 h)]

theorem Sound.exists_pathFrom (ht : t.Sound) {target p : Position} (hp : p ∈ t.nodes)
    (later : List Snapshot) :
    ∃ path, t.pathFrom target (p.slot.toNat - t.anchor.slot.toNat) p later = .ok path := by
  generalize hn : p.slot.toNat - t.anchor.slot.toNat = n
  induction n generalizing p later with
  | zero =>
    unfold pathFrom
    rw [if_pos (ht.eq_anchor_of_slot_le hp (by omega))]
    exact ⟨later, rfl⟩
  | succ n ih =>
    have hne : p ≠ t.anchor := by
      rintro rfl
      omega
    obtain ⟨node, hnode⟩ := (Lookup.mem_iff_exists _ _).1 hp
    obtain ⟨q, hq, -, hfollows⟩ := ht.exists_parent hnode hne
    have hslot := hfollows.slot
    unfold pathFrom
    rw [if_neg hne, hnode]
    simp only [hfollows.parent]
    exact ih hq (node.entry :: later) (by omega)

theorem Sound.exists_pathTo (ht : t.Sound) {target : Position} (h : target ∈ t.nodes) :
    ∃ path, t.pathTo target = .ok path := by
  unfold pathTo
  rw [if_pos (Std.ExtTreeMap.contains_iff_mem.2 h)]
  exact ht.exists_pathFrom h []

end BeaconHistory.ForkTree
