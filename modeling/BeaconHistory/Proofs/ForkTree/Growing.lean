import BeaconHistory.Proofs.ForkTree.Step

/-!
# ForkTree.Growing — growth is made of elementary changes

Empty slots are added one after the other, and a block on top of the last one.  A new entry stands at
the position that the program names only if no hash collides, so the strings hashed for the entries
are assumed to be free of collisions.  Main statements: a growth that fails leaves empty slots behind
and nothing else, and one that adds a block grafts it onto them.
-/

namespace BeaconHistory.ForkTree

variable {t u : ForkTree} {entry : Snapshot} {tip : Position} {b : Block} {K : List (List UInt8)}

/-! ## 1. Runs of empty slots -/

/-- Empty slots, added one after the other. -/
inductive Sprouting : ForkTree → ForkTree → Prop where
  | none (t : ForkTree) : Sprouting t t
  | next {t u : ForkTree} {entry : Snapshot} {tip : Position} (h : t.Sprouts entry tip)
      (rest : Sprouting (t.insert entry tip) u) : Sprouting t u

namespace Sprouting

theorem steps (h : Sprouting t u) (accepted : Block → Prop) : Steps accepted t u := by
  induction h with
  | none t => exact Relation.ReflTransGen.refl
  | next h _ ih => exact Relation.ReflTransGen.head (.sprout h) ih

theorem sound (h : Sprouting t u) (ht : t.Sound) : u.Sound :=
  (h.steps fun _ => False).sound ht

theorem anchor (h : Sprouting t u) : u.anchor = t.anchor := (h.steps fun _ => False).anchor

theorem blocks (h : Sprouting t u) (ht : t.Sound) : u.blocks = t.blocks := by
  induction h with
  | none t => rfl
  | next h _ ih => rw [ih (ht.insert (h.fits ht)), h.blocks_insert ht]

theorem nodes (h : Sprouting t u) (ht : t.Sound) {p : Position} {node : Node}
    (hnode : t.nodes[p]? = some node) : u.nodes[p]? = some node :=
  (h.steps fun _ => False).nodes ht hnode

end Sprouting

/-! ## 2. What is hashed for a tree -/

/-- The strings hashed for the entries of a tree. -/
def hashed (t : ForkTree) : List (List UInt8) :=
  t.nodes.toList.flatMap fun item => item.2.entry.state.hashed

theorem mem_hashed_of_node {p : Position} {node : Node} (hnode : t.nodes[p]? = some node)
    {x : List UInt8} (hx : x ∈ node.entry.state.hashed) : x ∈ t.hashed :=
  List.mem_flatMap.2 ⟨(p, node), Std.ExtTreeMap.mem_toList_iff_getElem?_eq_some.2 hnode, hx⟩

def HashedBefore (t : ForkTree) (K : List (List UInt8)) (s : Nat) : Prop :=
  ∀ (p : Position) (node : Node), t.nodes[p]? = some node → p.slot.toNat < s →
    ∀ x ∈ node.entry.state.hashed, x ∈ K

theorem HashedBefore.of_same {s : Nat} (h : u.HashedBefore K s)
    (hsame : ∀ p : Position, p.slot.toNat < s → u.nodes[p]? = t.nodes[p]?) : t.HashedBefore K s := by
  intro p node hnode hp
  rw [← hsame p hp] at hnode
  exact h p node hnode hp

-- An entry comes after everything that is hashed before its slot.
theorem HashedBefore.of_insert {slot : UInt64} {root : Root} (hposition : entry.position = ⟨slot, root⟩)
    (h : (t.insert entry tip).HashedBefore K slot.toNat) : t.HashedBefore K slot.toNat := by
  apply h.of_same
  intro p hp
  rw [nodes_insert, if_neg]
  intro heq
  rw [← heq, hposition] at hp
  exact Nat.lt_irrefl _ hp

theorem hashedBefore_of_hashed (h : ∀ x ∈ t.hashed, x ∈ K) (s : Nat) : t.HashedBefore K s :=
  fun _ _ hnode _ x hx => h x (mem_hashed_of_node hnode hx)

/-! ## 3. One empty slot -/

theorem built_eq_ok_iff {change : State → Outcome Transition.Error State} {p : Position} :
    (do
      let old ← Outcome.ofExcept (t.snapshot p)
      let state ← (change old.state).mapReason Frontier.Error.transition
      return Snapshot.ofState t.spec state) = .ok entry ↔
      ∃ node state, t.nodes[p]? = some node ∧ change node.entry.state = .ok state ∧
        entry = .ofState t.spec state := by
  unfold snapshot snapshot?
  cases t.nodes[p]? with
  | none => exact ⟨fun h => (by cases h), fun ⟨_, _, h, _⟩ => (by cases h)⟩
  | some node =>
    rw [Outcome.bind_eq_ok_iff]
    constructor
    · rintro ⟨_, hold, h⟩
      cases hold
      obtain ⟨state, hstate, h⟩ := Outcome.bind_eq_ok_iff.1 h
      cases h
      exact ⟨node, state, rfl, Outcome.mapReason_eq_ok_iff.1 hstate, rfl⟩
    · rintro ⟨_, state, heq, hstate, rfl⟩
      cases heq
      refine ⟨_, rfl, Outcome.bind_eq_ok_iff.2 ⟨state, ?_, rfl⟩⟩
      exact Outcome.mapReason_eq_ok_iff.2 hstate

theorem emptyAfter_eq_ok_iff :
    emptyAfter tip t = .ok entry ↔ ∃ node state, t.nodes[tip]? = some node ∧
      node.entry.state.advanced t.spec (following tip).slot = .ok state ∧
      entry = .ofState t.spec state :=
  built_eq_ok_iff

theorem slot_of_emptyAfter (h : emptyAfter tip t = .ok entry) :
    entry.position.slot = (following tip).slot := by
  obtain ⟨node, state, -, hstate, rfl⟩ := emptyAfter_eq_ok_iff.1 h
  exact State.slot_of_advanced hstate

theorem extendOnce_of_mem (h : following tip ∈ t.nodes) : extendOnce tip t = .ok (following tip) t :=
  if_pos (Std.ExtTreeMap.contains_iff_mem.2 h)

theorem extendOnce_of_ok (hfresh : following tip ∉ t.nodes) (h : emptyAfter tip t = .ok entry) :
    extendOnce tip t = .ok (following tip) (t.insert entry tip) := by
  unfold extendOnce
  rw [if_neg (mt Std.ExtTreeMap.contains_iff_mem.1 hfresh), h]

theorem extendOnce_of_error (hfresh : following tip ∉ t.nodes) {e : Failure Frontier.Error}
    (h : emptyAfter tip t = .error e) : extendOnce tip t = .error e t := by
  unfold extendOnce
  rw [if_neg (mt Std.ExtTreeMap.contains_iff_mem.1 hfresh), h]

theorem extendOnce_eq_error {e : Failure Frontier.Error} (h : extendOnce tip t = .error e u) :
    u = t ∧ emptyAfter tip t = .error e := by
  by_cases hmem : following tip ∈ t.nodes
  · rw [extendOnce_of_mem hmem] at h
    cases h
  · cases hnew : emptyAfter tip t with
    | ok entry =>
      rw [extendOnce_of_ok hmem hnew] at h
      cases h
    | error e' =>
      rw [extendOnce_of_error hmem hnew] at h
      cases h
      exact ⟨rfl, rfl⟩

theorem Sound.sprouts (ht : t.Sound) (hK : CollisionFree K)
    (hhashed : t.HashedBefore K (tip.slot.toNat + 1)) (hslot : tip.slot.toNat + 1 < 2 ^ 64)
    (hfresh : following tip ∉ t.nodes) (h : emptyAfter tip t = .ok entry) : t.Sprouts entry tip := by
  obtain ⟨node, state, hnode, hstate, rfl⟩ := emptyAfter_eq_ok_iff.1 h
  refine ⟨⟨node, hnode, hstate⟩, rfl, hslot, hfresh, ?_⟩
  have hnodeSlot : (following tip).slot = node.entry.state.slot + 1 := by
    rw [ht.slot_eq hnode]
    rfl
  -- The root of the state that is left fills in the header, so it must not be zero.
  have hroot := hK.root_ne_zero (hhashed tip node hnode (Nat.lt_succ_self _))
  have hleave := hstate
  rw [hnodeSlot] at hleave
  have hleave := State.leaveSlot_of_advanced (by rw [ht.slot_eq hnode]; exact hslot) hleave
  have hposition : (Snapshot.ofState t.spec state).position = ⟨state.slot, state.latestBlockRoot⟩ :=
    Snapshot.position_eq _
  rw [hposition, State.slot_of_advanced hstate, State.latestBlockRoot_of_leaveSlot hleave hroot,
    ht.root_eq hnode]
  rfl

/-! ## 4. Several empty slots -/

theorem extend_succ (n : Nat) (tip : Position) (t : ForkTree) :
    extend (n + 1) tip t =
      match extendOnce tip t with
      | .ok q u => extend n q u
      | .error e u => .error e u := by
  show EStateM.bind (extendOnce tip) (extend n) t = _
  unfold EStateM.bind
  cases extendOnce tip t <;> rfl

theorem extend_succ_last (n : Nat) (tip : Position) (t : ForkTree) :
    extend (n + 1) tip t =
      match extend n tip t with
      | .ok q u => extendOnce q u
      | .error e u => .error e u := by
  induction n generalizing tip t with
  | zero =>
    rw [extend_succ]
    show _ = extendOnce tip t
    cases extendOnce tip t <;> rfl
  | succ n ih =>
    rw [extend_succ, extend_succ]
    cases extendOnce tip t with
    | error e u => rfl
    | ok q u => exact ih q u

-- Whatever the roots of the new entries, extending ends as many slots later as it was told to.
theorem slot_of_extend {n : Nat} (hbound : tip.slot.toNat + n < 2 ^ 64) {q : Position}
    (h : extend n tip t = .ok q u) : q.slot.toNat = tip.slot.toNat + n ∧ q.root = tip.root := by
  induction n generalizing tip t with
  | zero =>
    cases h
    exact ⟨rfl, rfl⟩
  | succ n ih =>
    have hslot := toNat_slot_following (p := tip) (by omega)
    have hnext (v : ForkTree) (hrest : extend n (following tip) v = .ok q u) :
        q.slot.toNat = tip.slot.toNat + (n + 1) ∧ q.root = tip.root := by
      obtain ⟨hq, hroot⟩ := ih (by omega) hrest
      exact ⟨by omega, hroot⟩
    rw [extend_succ] at h
    by_cases hmem : following tip ∈ t.nodes
    · rw [extendOnce_of_mem hmem] at h
      exact hnext t h
    · cases hnew : emptyAfter tip t with
      | error e =>
        rw [extendOnce_of_error hmem hnew] at h
        cases h
      | ok entry =>
        rw [extendOnce_of_ok hmem hnew] at h
        exact hnext _ h

-- Extending touches no slot up to the one it starts from.
theorem nodes_extend {n : Nat} (hbound : tip.slot.toNat + n < 2 ^ 64) {p : Position}
    (hp : p.slot.toNat ≤ tip.slot.toNat) : ((extend n tip).after t).nodes[p]? = t.nodes[p]? := by
  induction n generalizing tip t with
  | zero => rfl
  | succ n ih =>
    have hslot := toNat_slot_following (p := tip) (by omega)
    unfold Operation.after EStateM.run at ih ⊢
    rw [extend_succ]
    by_cases hmem : following tip ∈ t.nodes
    · rw [extendOnce_of_mem hmem]
      exact ih (by omega) (by omega)
    · cases hnew : emptyAfter tip t with
      | error e => rw [extendOnce_of_error hmem hnew]
      | ok entry =>
        rw [extendOnce_of_ok hmem hnew]
        dsimp only
        rw [ih (by omega) (by omega), nodes_insert, if_neg]
        intro heq
        rw [← heq, slot_of_emptyAfter hnew, hslot] at hp
        omega

/-- Every node that `u` has and `t` has not carries one root, and is no later than a slot. -/
def Within (root : Root) (s : Nat) (t u : ForkTree) : Prop :=
  ∀ p ∈ u.nodes, p ∈ t.nodes ∨ p.root = root ∧ p.slot.toNat ≤ s

theorem Within.refl (root : Root) (s : Nat) (t : ForkTree) : Within root s t t := fun _ => Or.inl

theorem Within.mono {root : Root} {s s' : Nat} (h : Within root s t u) (hle : s ≤ s') :
    Within root s' t u := fun p hp => (h p hp).imp_right fun ⟨hroot, hslot⟩ => ⟨hroot, by omega⟩

theorem Within.trans {root : Root} {s : Nat} {v : ForkTree} (h : Within root s t u)
    (h' : Within root s u v) : Within root s t v := fun p hp => (h' p hp).elim (h p) Or.inr

theorem Within.insert {root : Root} {s : Nat} (hroot : entry.position.root = root)
    (hslot : entry.position.slot.toNat ≤ s) : Within root s t (t.insert entry tip) := by
  intro p hp
  rcases mem_insert_iff.1 hp with rfl | hp
  · exact Or.inr ⟨hroot, hslot⟩
  · exact Or.inl hp

-- The node at the tip is there until the end, so what is hashed for it is known.
theorem HashedBefore.of_extend {n : Nat} (hbound : tip.slot.toNat + (n + 1) < 2 ^ 64)
    (h : ((extend (n + 1) tip).after t).HashedBefore K (tip.slot.toNat + (n + 1))) :
    t.HashedBefore K (tip.slot.toNat + 1) := by
  intro p node hnode hp
  rw [← nodes_extend hbound (Nat.le_of_lt_succ hp)] at hnode
  exact h p node hnode (by omega)

/-- One more empty slot is a node already, is added, or is not reached by the state before it. -/
theorem Sound.extendOnce_cases (ht : t.Sound) (hK : CollisionFree K)
    (hhashed : t.HashedBefore K (tip.slot.toNat + 1)) (hslot : tip.slot.toNat + 1 < 2 ^ 64) :
    following tip ∈ t.nodes ∧ extendOnce tip t = .ok (following tip) t ∨
      (∃ entry, t.Sprouts entry tip ∧ emptyAfter tip t = .ok entry ∧
        extendOnce tip t = .ok (following tip) (t.insert entry tip)) ∨
      following tip ∉ t.nodes ∧ ∃ e, emptyAfter tip t = .error e ∧ extendOnce tip t = .error e t := by
  by_cases hmem : following tip ∈ t.nodes
  · exact Or.inl ⟨hmem, extendOnce_of_mem hmem⟩
  · cases hnew : emptyAfter tip t with
    | ok entry =>
      exact Or.inr (Or.inl
        ⟨entry, ht.sprouts hK hhashed hslot hmem hnew, rfl, extendOnce_of_ok hmem hnew⟩)
    | error e => exact Or.inr (Or.inr ⟨hmem, e, rfl, extendOnce_of_error hmem hnew⟩)

/-- Extending adds empty slots of the run that it starts on, and ends at a node. -/
theorem Sound.sprouting_extend (ht : t.Sound) (hK : CollisionFree K) {n : Nat} (htip : tip ∈ t.nodes)
    (hbound : tip.slot.toNat + n < 2 ^ 64)
    (hhashed : ((extend n tip).after t).HashedBefore K (tip.slot.toNat + n)) :
    Sprouting t ((extend n tip).after t) ∧
      Within tip.root (tip.slot.toNat + n) t ((extend n tip).after t) ∧
      ∀ q u, extend n tip t = .ok q u → q ∈ u.nodes := by
  induction n generalizing tip t with
  | zero =>
    refine ⟨.none t, .refl _ _ t, ?_⟩
    intro q u h
    cases h
    exact htip
  | succ n ih =>
    have hslot := toNat_slot_following (p := tip) (by omega)
    have hhashedTip := hhashed.of_extend hbound
    have hcount : (following tip).slot.toNat + n = tip.slot.toNat + (n + 1) := by omega
    unfold Operation.after EStateM.run at hhashed ⊢
    rw [extend_succ] at hhashed ⊢
    rcases ht.extendOnce_cases hK hhashedTip (by omega) with
      ⟨hmem, heq⟩ | ⟨entry, hsprouts, -, heq⟩ | ⟨-, e, -, heq⟩ <;> rw [heq] at hhashed ⊢
    · have hrest := ih ht hmem (by omega) (hcount ▸ hhashed)
      rw [hcount] at hrest
      exact hrest
    · have hfollowing : following tip ∈ (t.insert entry tip).nodes :=
        mem_insert_iff.2 (Or.inl hsprouts.position)
      have hroot : entry.position.root = tip.root := by
        rw [hsprouts.position]
        rfl
      have hnewSlot : entry.position.slot.toNat = tip.slot.toNat + 1 := by
        rw [hsprouts.position, hslot]
      have hrest := ih (ht.insert (hsprouts.fits ht)) hfollowing (by omega) (hcount ▸ hhashed)
      rw [hcount] at hrest
      obtain ⟨hgrown, hwithin, hend⟩ := hrest
      exact ⟨.next hsprouts hgrown, (Within.insert hroot (by omega)).trans hwithin, hend⟩
    · exact ⟨.none t, .refl _ _ t, fun q u h => (by cases h)⟩

/-! ## 5. Empty slots up to a slot -/

theorem position_of_extendTo {slot : UInt64} (hle : tip.slot ≤ slot) {q : Position}
    (h : extendTo tip slot t = .ok q u) : q = ⟨slot, tip.root⟩ := by
  have hle := UInt64.le_iff_toNat_le.1 hle
  have hword := slot.toNat_lt
  obtain ⟨hslot, hroot⟩ := slot_of_extend (by omega) h
  have hslot : q.slot = slot := by
    apply UInt64.toNat_inj.1
    omega
  cases q
  simp only at hslot hroot
  rw [hslot, hroot]

theorem Sound.sprouting_extendTo (ht : t.Sound) (hK : CollisionFree K) (htip : tip ∈ t.nodes)
    {slot : UInt64} {s : Nat} (htipSlot : tip.slot.toNat ≤ s) (hslot : slot.toNat ≤ s)
    (hhashed : ((extendTo tip slot).after t).HashedBefore K s) :
    Sprouting t ((extendTo tip slot).after t) ∧
      Within tip.root s t ((extendTo tip slot).after t) ∧
      ∀ q u, extendTo tip slot t = .ok q u → q ∈ u.nodes := by
  have htipWord := tip.slot.toNat_lt
  have hslotWord := slot.toNat_lt
  obtain ⟨hgrown, hwithin, hend⟩ := ht.sprouting_extend hK (n := slot.toNat - tip.slot.toNat) htip
    (by omega) fun p node hnode hp => hhashed p node hnode (by omega)
  exact ⟨hgrown, hwithin.mono (by omega), hend⟩

theorem toNat_sub_one {slot : UInt64} {n : Nat} (h : n < slot.toNat) :
    (slot - 1).toNat = slot.toNat - 1 := by
  have hone : (1 : UInt64) ≤ slot := by
    rw [UInt64.le_iff_toNat_le, UInt64.toNat_one]
    omega
  rw [UInt64.toNat_sub_of_le _ _ hone, UInt64.toNat_one]

/-! ## 6. Blocks -/

theorem insertOn_eq (b : Block) (parent : Position) (t : ForkTree) :
    insertOn b parent t =
      match extendTo parent (b.slot - 1) t with
      | .error e u => .error e u
      | .ok tip u => match extendTo tip b.slot u with
        | .error e v => .error e v
        | .ok pre v => match applied b pre v with
          | .error e => .error e v
          | .ok post => .ok post (v.insert post tip) := by
  unfold insertOn
  simp only [bind, EStateM.bind]
  cases extendTo parent (b.slot - 1) t with
  | error e u => rfl
  | ok tip u =>
    dsimp only
    cases extendTo tip b.slot u with
    | error e v => rfl
    | ok pre v =>
      dsimp only
      unfold Operation.ofOutcome
      cases applied b pre v <;> rfl

/-- The slots up to the one before a block, and then the slot of the block, are passed like all of them in
one go. -/
theorem insertOn_eq_extendTo {parent : Position} (hslot : parent.slot < b.slot) (t : ForkTree) :
    insertOn b parent t =
      match extendTo parent b.slot t with
      | .error e u => .error e u
      | .ok pre u => match applied b pre u with
        | .error e => .error e u
        | .ok post => .ok post (u.insert post ⟨b.slot - 1, parent.root⟩) := by
  have hlt := UInt64.lt_iff_toNat_lt.1 hslot
  have hpred := toNat_sub_one hlt
  have hle : parent.slot ≤ b.slot - 1 := UInt64.le_iff_toNat_le.2 (by omega)
  have hcount : b.slot.toNat - parent.slot.toNat = (b.slot - 1).toNat - parent.slot.toNat + 1 := by omega
  rw [insertOn_eq, show extendTo parent b.slot = extend _ parent from rfl, hcount, extend_succ_last]
  show (match extendTo parent (b.slot - 1) t with
    | .error e u => _
    | .ok tip u => _) = _
  cases hu : extendTo parent (b.slot - 1) t with
  | error e u =>
    rw [show extend _ parent t = _ from hu]
  | ok tip u =>
    have htip := position_of_extendTo hle hu
    have hone : b.slot.toNat - tip.slot.toNat = 1 := by
      rw [htip]
      dsimp only
      omega
    have hlast : extendTo tip b.slot u = extendOnce tip u := by
      show extend (b.slot.toNat - tip.slot.toNat) tip u = _
      rw [hone, extend_succ_last]
      rfl
    rw [show extend _ parent t = _ from hu, ← htip]
    dsimp only
    rw [hlast]

theorem insertBlock_eq (b : Block) (t : ForkTree) :
    insertBlock b t =
      if b.slot ≤ t.anchor.slot then .error (.refused (.notAfterAnchor b.slot t.anchor.slot)) t
      else match t.block? b.root with
        | some entry => .ok entry t
        | none => match t.blocks[b.parentRoot]? with
          | none => .error (.refused (.unknownParent b.slot b.parentRoot)) t
          | some parent =>
            if b.slot ≤ parent.slot then
              .error (.refused (.slotNotAfterParent b.slot parent.slot)) t
            else insertOn b parent t := by
  unfold insertBlock
  rw [Operation.get_bind]
  split
  · rfl
  · cases t.block? b.root with
    | some entry => rfl
    | none =>
      dsimp only
      cases t.blocks[b.parentRoot]? with
      | none => rfl
      | some parent =>
        dsimp only
        split <;> rfl

theorem applied_eq_ok_iff {pre : Position} :
    applied b pre t = .ok entry ↔ ∃ node state, t.nodes[pre]? = some node ∧
      (Transition.applyBlock t.spec b).reach node.entry.state = .ok state ∧
      entry = .ofState t.spec state :=
  built_eq_ok_iff

/-- The tree `u` is `t` with block `b` as `entry`, and the empty slots of its parent up to it. -/
def Adds (t : ForkTree) (b : Block) (entry : Snapshot) (u : ForkTree) : Prop :=
  ∃ tip v, Sprouting t v ∧ Within b.parentRoot b.slot.toNat t v ∧ v.Grafts b entry tip ∧
    u = v.insert entry tip

theorem position_of_applied {pre : Position} (h : applied b pre t = .ok entry) :
    entry.position = ⟨b.slot, b.root⟩ := by
  obtain ⟨node, state, -, hstate, rfl⟩ := applied_eq_ok_iff.1 h
  exact congrArg Summary.position (Transition.summary_of_applyBlock hstate)

theorem grafts_of_applied (htip : tip ∈ t.nodes) (hslot : tip.slot.toNat + 1 = b.slot.toNat)
    (hroot : tip.root = b.parentRoot) (hfresh : t.blocks[b.root]? = none)
    (h : applied b (following tip) t = .ok entry) : t.Grafts b entry tip := by
  obtain ⟨node, state, hnode, hstate, rfl⟩ := applied_eq_ok_iff.1 h
  exact ⟨⟨node, hnode, hstate⟩, rfl, htip, hslot, hroot, hfresh⟩

-- The block comes after all empty slots, so what is hashed for them is known.
theorem HashedBefore.of_insertOn {parent : Position} (hslot : parent.slot < b.slot)
    (h : ((insertOn b parent).after t).HashedBefore K b.slot.toNat) :
    ((extendTo parent b.slot).after t).HashedBefore K b.slot.toNat := by
  unfold Operation.after EStateM.run at h ⊢
  rw [insertOn_eq_extendTo hslot] at h
  cases hu : extendTo parent b.slot t with
  | error e u =>
    rw [hu] at h
    exact h
  | ok pre u =>
    rw [hu] at h
    dsimp only at h ⊢
    cases hpost : applied b pre u with
    | error e =>
      rw [hpost] at h
      exact h
    | ok post =>
      rw [hpost] at h
      exact h.of_insert (position_of_applied hpost)

-- A block that is refused leaves what passing the empty slots leaves.
theorem insertOn_eq_error {parent : Position} (hslot : parent.slot < b.slot)
    {e : Failure Frontier.Error} (h : insertOn b parent t = .error e u) :
    u = (extendTo parent b.slot).after t := by
  rw [Operation.after_eq]
  rw [insertOn_eq_extendTo hslot] at h
  cases hv : extendTo parent b.slot t with
  | error e' v =>
    rw [hv] at h
    cases h
    rfl
  | ok pre v =>
    rw [hv] at h
    dsimp only at h
    cases hpost : applied b pre v with
    | error e' =>
      rw [hpost] at h
      cases h
      rfl
    | ok post =>
      rw [hpost] at h
      cases h

/-- Growing on top of a parent leaves empty slots behind if it fails, and adds the block otherwise. -/
theorem Sound.adds_insertOn (ht : t.Sound) (hK : CollisionFree K) {parent : Position}
    (hparent : t.blocks[b.parentRoot]? = some parent) (hslot : parent.slot < b.slot)
    (hfresh : t.blocks[b.root]? = none)
    (hhashed : ((insertOn b parent).after t).HashedBefore K b.slot.toNat) :
    (∀ e u, insertOn b parent t = .error e u → Sprouting t u) ∧
      ∀ entry u, insertOn b parent t = .ok entry u → t.Adds b entry u := by
  have hlt := UInt64.lt_iff_toNat_lt.1 hslot
  have hpred := toNat_sub_one hlt
  obtain ⟨hgrown, hwithin, hend⟩ := ht.sprouting_extendTo hK (ht.mem_of_blocks hparent)
    (Nat.le_of_lt hlt) (Nat.le_refl b.slot.toNat) (hhashed.of_insertOn hslot)
  refine ⟨fun e u h => insertOn_eq_error hslot h ▸ hgrown, fun entry w h => ?_⟩
  rw [insertOn_eq_extendTo hslot] at h
  cases hu : extendTo parent b.slot t with
  | error e u =>
    rw [hu] at h
    cases h
  | ok pre u =>
    rw [hu] at h
    rw [Operation.after_eq_of_ok hu] at hgrown hwithin
    dsimp only at h
    cases hpost : applied b pre u with
    | error e =>
      rw [hpost] at h
      cases h
    | ok post =>
      rw [hpost] at h
      cases h
      have hpre := position_of_extendTo (UInt64.le_of_lt hslot) hu
      have hparentRoot := ht.root_of_blocks hparent
      -- The slot before the block is on the run of the parent, too.
      have htip : (⟨b.slot - 1, parent.root⟩ : Position) ∈ u.nodes := by
        have hmem := hend pre u hu
        have horigin : u.blocks[parent.root]? = some parent := by
          rw [hgrown.blocks ht, hparentRoot, hparent]
        rw [hpre] at hmem
        exact (hgrown.sound ht).mem_run hmem horigin (UInt64.le_iff_toNat_le.2 (by omega))
          (UInt64.le_iff_toNat_le.2 (by dsimp only; omega))
      have htipSlot : (b.slot - 1).toNat + 1 = b.slot.toNat := by omega
      have hnext : following ⟨b.slot - 1, parent.root⟩ = pre := by rw [hpre, following_eq htipSlot]
      have hgrafts := grafts_of_applied htip htipSlot hparentRoot
        (by rw [hgrown.blocks ht, hfresh]) (hnext.symm ▸ hpost)
      exact ⟨_, u, hgrown, hparentRoot ▸ hwithin, hgrafts, rfl⟩

-- A block after the anchor that is not served is not indexed: only the anchor is indexed and not served,
-- and it carries no block that late.
theorem Sound.blocks_eq_none (ht : t.Sound) (hK : CollisionFree K) (hhashed : ∀ x ∈ t.hashed, x ∈ K)
    (hb : b.preimage ∈ K) (hslot : t.anchor.slot < b.slot) (h : t.block? b.root = none) :
    t.blocks[b.root]? = none := by
  cases hp : t.blocks[b.root]? with
  | none => rfl
  | some p =>
    obtain ⟨node, hnode⟩ := (Lookup.mem_iff_exists _ _).1 (ht.mem_of_blocks hp)
    by_cases hanchor : p = t.anchor
    · have hroot : (node.entry.state.sealedHeader node.entry.state.root).root = b.root :=
        (ht.root_eq hnode).trans (ht.root_of_blocks hp)
      have hsealed := mem_hashed_of_node hnode node.entry.state.sealedHeader_mem_hashed
      have hheader := hK.header_eq (hhashed _ hsealed) hb hroot
      have haged := ht.aged p node hnode
      unfold State.Aged at haged
      rw [← State.slot_sealedHeader node.entry.state node.entry.state.root, hheader, ht.slot_eq hnode,
        hanchor] at haged
      exact absurd hslot (UInt64.not_lt.2 haged)
    · rw [ht.block?_eq_some_iff.2 ⟨p, node, hp, hanchor, hnode, rfl⟩] at h
      cases h

/-- Adding a block leaves empty slots behind if it fails; otherwise the block was held already or is
added. -/
theorem Sound.adds_insertBlock (ht : t.Sound) (hK : CollisionFree K) (hold : ∀ x ∈ t.hashed, x ∈ K)
    (hb : t.anchor.slot < b.slot → b.preimage ∈ K)
    (hnew : ∀ x ∈ ((insertBlock b).after t).hashed, x ∈ K) :
    (∀ e u, insertBlock b t = .error e u → Sprouting t u) ∧
      ∀ entry u, insertBlock b t = .ok entry u →
        u = t ∧ t.block? b.root = some entry ∨ t.Adds b entry u := by
  unfold Operation.after EStateM.run at hnew
  rw [insertBlock_eq] at hnew ⊢
  by_cases hslot : b.slot ≤ t.anchor.slot
  · rw [if_pos hslot]
    exact ⟨fun _ _ h => (by cases h; exact .none t), fun _ _ h => (by cases h)⟩
  · rw [if_neg hslot] at hnew ⊢
    have hslot := UInt64.not_le.1 hslot
    cases hserved : t.block? b.root with
    | some entry =>
      exact ⟨fun _ _ h => (by cases h), fun _ _ h => (by cases h; exact Or.inl ⟨rfl, rfl⟩)⟩
    | none =>
      rw [hserved] at hnew
      dsimp only at hnew ⊢
      cases hparent : t.blocks[b.parentRoot]? with
      | none => exact ⟨fun _ _ h => (by cases h; exact .none t), fun _ _ h => (by cases h)⟩
      | some parent =>
        rw [hparent] at hnew
        dsimp only at hnew ⊢
        by_cases hafter : b.slot ≤ parent.slot
        · rw [if_pos hafter]
          exact ⟨fun _ _ h => (by cases h; exact .none t), fun _ _ h => (by cases h)⟩
        · rw [if_neg hafter] at hnew ⊢
          have hfresh := ht.blocks_eq_none hK hold (hb hslot) hslot hserved
          obtain ⟨herror, hok⟩ := ht.adds_insertOn hK hparent (UInt64.not_le.1 hafter) hfresh
            (hashedBefore_of_hashed hnew _)
          exact ⟨herror, fun entry u h => Or.inr (hok entry u h)⟩

/-! ## 7. Reaching a slot -/

theorem reachSlot_eq (root : Root) (slot : UInt64) (t : ForkTree) :
    reachSlot root slot t =
      match t.blocks[root]? with
      | none => .error (.refused (.unknownBlock root)) t
      | some p => match extendTo p slot t with
        | .ok _ u => .ok () u
        | .error e u => .error e u := by
  unfold reachSlot
  rw [Operation.get_bind]
  cases t.blocks[root]? with
  | none => rfl
  | some p =>
    dsimp only
    cases h : extendTo p slot t <;> simp [discard, Functor.discard, Functor.mapConst, EStateM.map, h]

theorem after_reachSlot (root : Root) (slot : UInt64) (t : ForkTree) :
    (reachSlot root slot).after t =
      match t.blocks[root]? with
      | none => t
      | some p => (extendTo p slot).after t := by
  unfold Operation.after EStateM.run
  rw [reachSlot_eq]
  cases t.blocks[root]? with
  | none => rfl
  | some p =>
    dsimp only
    cases extendTo p slot t <;> rfl

theorem Sound.sprouting_reachSlot (ht : t.Sound) (hK : CollisionFree K) {root : Root} {slot : UInt64}
    (hnew : ∀ x ∈ ((reachSlot root slot).after t).hashed, x ∈ K) :
    Sprouting t ((reachSlot root slot).after t) := by
  rw [after_reachSlot] at hnew ⊢
  cases hp : t.blocks[root]? with
  | none => exact .none t
  | some p =>
    rw [hp] at hnew
    have hpWord := p.slot.toNat_lt
    have hslotWord := slot.toNat_lt
    exact (ht.sprouting_extendTo hK (ht.mem_of_blocks hp) (Nat.le_of_lt hpWord)
      (Nat.le_of_lt hslotWord) (hashedBefore_of_hashed hnew _)).1

end BeaconHistory.ForkTree
