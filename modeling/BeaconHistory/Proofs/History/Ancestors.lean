import BeaconHistory.Proofs.Frontier.Fates
import BeaconHistory.Proofs.History.Contents
import BeaconHistory.Proofs.History.Use

/-!
# History.Ancestors — ancestry across the two regions

The records and the branch of a block are one chronicle, and its blocks are the ancestors of the last
one.  Main statement: the four ways in which a history tells whether a block is an ancestor of another
all agree with the parent roots of the blocks that were accepted, and what is told of two blocks stands
until one of them is pruned.
-/

namespace BeaconHistory.History

variable {τ : Type} {h : History τ} {taken : Block → Prop} {first : Summary} {x y : Root}

-- A block that one of the regions holds.
def Known (h : History τ) (root : Root) : Prop :=
  h.frontier.containsBlock root = .ok true ∨ h.ledger.containsBlock root = .ok true

/-! ## 1. Where a block is -/

def Recorded (h : History τ) (root : Root) : Prop :=
  ∃ s ∈ h.ledger.records.toList, s.blockRoot = root

theorem Sound.blocks_isSome (hs : h.Sound taken first) (root : Root) :
    h.ledger.blocks.contains root = true ↔ h.Recorded root := by
  rw [Std.ExtTreeMap.contains_iff_mem, Lookup.mem_iff_exists]
  simp only [hs.ledger.blocks root, Option.map_eq_some_iff]
  constructor
  · rintro ⟨_, s, hs, -⟩
    exact ⟨s, List.mem_of_find?_eq_some hs, by simpa using List.find?_some hs⟩
  · rintro ⟨s, hmem, hroot⟩
    cases hfound : h.ledger.records.toList.find? fun s => s.blockRoot = root with
    | some s => exact ⟨_, s, rfl, rfl⟩
    | none => exact absurd hroot (by simpa using List.find?_eq_none.1 hfound s hmem)

theorem Sound.recorded_iff (hs : h.Sound taken first) (root : Root) :
    h.ledger.containsBlock root = .ok true ↔ h.Recorded root := by
  rw [Ledger.containsBlock_of_open hs.ledger.opened, ← hs.blocks_isSome]
  exact ⟨Except.ok.inj, congrArg Except.ok⟩

theorem Sound.knows_iff (hs : h.Sound taken first) (root : Root) : h.knows root = true ↔ h.Known root := by
  unfold knows Known
  rw [Frontier.containsBlock_of_open hs.opened, Ledger.containsBlock_of_open hs.ledger.opened]
  cases (h.frontier.tree.block? root).isSome <;> cases h.ledger.blocks.contains root <;> simp

theorem Sound.hot_iff (hs : h.Sound taken first) (root : Root) :
    h.frontier.containsBlock root = .ok true ↔
      ∃ p, h.frontier.tree.blocks[root]? = some p ∧ p ≠ h.frontier.tree.anchor := by
  rw [Frontier.containsBlock_of_open hs.opened]
  constructor
  · intro heq
    obtain ⟨entry, hentry⟩ := Option.isSome_iff_exists.1 (Except.ok.inj heq)
    obtain ⟨p, node, hp, hne, -, -⟩ := hs.tree.block?_eq_some_iff.1 hentry
    exact ⟨p, hp, hne⟩
  · rintro ⟨p, hp, hne⟩
    obtain ⟨node, hnode⟩ := (Lookup.mem_iff_exists _ _).1 (hs.tree.mem_of_blocks hp)
    rw [hs.tree.block?_eq_some_iff.2 ⟨p, node, hp, hne, hnode, rfl⟩]
    rfl

theorem Sound.recorded_anchor (hs : h.Sound taken first) :
    h.Recorded h.frontier.tree.anchor.root := by
  obtain ⟨last, hlog, hlast⟩ := hs.exists_last
  exact ⟨last, hlog.last_mem, congrArg Position.root hlast⟩

theorem Sound.ne_anchor (hs : h.Sound taken first) {p : Position}
    (hp : h.frontier.tree.blocks[y]? = some p) (hy : ¬ h.Recorded y) : p ≠ h.frontier.tree.anchor := by
  rintro rfl
  exact hy (hs.tree.root_of_blocks hp ▸ hs.recorded_anchor)

theorem Sound.known_iff (hs : h.Sound taken first) (hy : ¬ h.Recorded y) :
    h.Known y ↔ ∃ p, h.frontier.tree.blocks[y]? = some p := by
  unfold Known
  rw [hs.recorded_iff, hs.hot_iff]
  constructor
  · rintro (⟨p, hp, -⟩ | hrecorded)
    · exact ⟨p, hp⟩
    · exact absurd hrecorded hy
  · rintro ⟨p, hp⟩
    exact Or.inl ⟨p, hp, hs.ne_anchor hp hy⟩

theorem Sound.known_of_recorded (hs : h.Sound taken first) (hx : h.Recorded x) : h.Known x :=
  Or.inr ((hs.recorded_iff x).2 hx)

/-! ## 2. The chronicle of a block -/

-- The chronicle that leads to a recorded block goes up to its first record.
theorem Sound.chronicle_of_recorded (hs : h.Sound taken first) (hy : h.Recorded y) :
    ∃ before s after, h.ledger.records.toList = before ++ s :: after ∧
      Chronicle taken first (before ++ [s]) s ∧ s.blockRoot = y ∧
      (h.ledger.blocks[y]? = some s.slot) ∧ ∀ q ∈ before, q.blockRoot ≠ y := by
  obtain ⟨last, hlog⟩ := hs.ledger.chronicle
  obtain ⟨q, hmem, hroot⟩ := hy
  cases hfound : h.ledger.records.toList.find? fun s => s.blockRoot = y with
  | none => exact absurd hroot (by simpa using List.find?_eq_none.1 hfound q hmem)
  | some s =>
    obtain ⟨hsroot, before, after, hsplit, hbefore⟩ := List.find?_eq_some_iff_append.1 hfound
    have hprefix : before ++ [s] <+: h.ledger.records.toList := by
      rw [hsplit]
      exact ⟨after, (List.append_cons before s after).symm⟩
    obtain ⟨last', hlast'⟩ := hlog.of_prefix hprefix (by simp)
    have hend : last' = s := by
      have hlast := hlast'.getLast?
      rw [List.getLast?_concat] at hlast
      exact (Option.some.inj hlast).symm
    subst hend
    refine ⟨before, last', after, hsplit, hlast', by simpa using hsroot, ?_, ?_⟩
    · rw [hs.ledger.blocks, hfound]
      rfl
    · intro q hq
      simpa using hbefore q hq

-- The chronicle that leads to a block of the frontier has all records and then the branch.
theorem Sound.chronicle_of_hot (hs : h.Sound taken first) {p : Position}
    (hp : h.frontier.tree.blocks[y]? = some p) :
    ∃ path last, h.frontier.tree.Branch path p ∧ last.blockRoot = y ∧
      Chronicle taken first (h.ledger.records.toList ++ path.map Snapshot.summary) last := by
  obtain ⟨entry, hentry, hlog⟩ := hs.joined
  obtain ⟨path, hpath⟩ := hs.tree.exists_pathTo (hs.tree.mem_of_blocks hp)
  obtain ⟨hbranch, -⟩ := ForkTree.branch_of_pathTo hpath
  obtain ⟨node, hnode, hchronicle⟩ := hbranch.chronicle hs.tree hs.backed hentry hlog
  refine ⟨path, node.entry.summary, hbranch, ?_, hchronicle⟩
  exact (congrArg Position.root (hs.tree.stored p node hnode)).trans (hs.tree.root_of_blocks hp)

theorem Sound.slot_lt_iff (hs : h.Sound taken first) (hne : x ≠ y) {before after : List Summary}
    {s : Summary} (hsplit : h.ledger.records.toList = before ++ s :: after) (hsroot : s.blockRoot = y)
    {i : UInt64} (hi : h.ledger.blocks[x]? = some i) :
    i < s.slot ↔ ∃ q ∈ before ++ [s], q.blockRoot = x := by
  obtain ⟨last, hlog⟩ := hs.ledger.chronicle
  have hslots := hlog.slots_pairwise
  rw [hsplit, List.pairwise_append] at hslots
  obtain ⟨-, hlater, hearlier⟩ := hslots
  rw [hs.ledger.blocks, hsplit, List.find?_append] at hi
  rw [UInt64.lt_iff_toNat_lt]
  cases hfound : before.find? fun q => q.blockRoot = x with
  | some q =>
    rw [hfound] at hi
    cases hi
    have hq := List.mem_of_find?_eq_some hfound
    have hroot : q.blockRoot = x := by simpa using List.find?_some hfound
    have hlt := hearlier q hq s List.mem_cons_self
    exact ⟨fun _ => ⟨q, List.mem_append_left _ hq, hroot⟩, fun _ => hlt⟩
  | none =>
    have hnone : ∀ q ∈ before, q.blockRoot ≠ x := fun q hq => by
      simpa using List.find?_eq_none.1 hfound q hq
    constructor
    · -- The first record of `x` is not before `s`, so it is not at an earlier slot.
      intro hlt
      rw [hfound, Option.none_or] at hi
      obtain ⟨q, hq, rfl⟩ := Option.map_eq_some_iff.1 hi
      rcases List.mem_cons.1 (List.mem_of_find?_eq_some hq) with hfirst | hafter
      · rw [hfirst] at hlt
        exact absurd hlt (Nat.lt_irrefl _)
      · have hle := (List.pairwise_cons.1 hlater).1 q hafter
        omega
    · intro ⟨q, hq, hroot⟩
      rcases List.mem_append.1 hq with hq | hq
      · exact absurd hroot (hnone q hq)
      · rw [List.mem_singleton.1 hq, hsroot] at hroot
        exact absurd hroot.symm hne

/-! ## 3. Answers -/

/-- What a right answer about `x` and `y` says. -/
structure Tells (h : History τ) (taken : Block → Prop) (x y : Root) (answer : Ancestry) : Prop where
  unknown : answer = .unknown ↔ ¬ (h.Known x ∧ h.Known y)
  ancestor : answer = .ancestor ↔
    h.Known x ∧ h.Known y ∧ Relation.TransGen (Links taken) y x
  notAncestor : answer = .notAncestor ↔
    h.Known x ∧ h.Known y ∧ ¬ Relation.TransGen (Links taken) y x

theorem tells_unknown (hunknown : ¬ (h.Known x ∧ h.Known y)) : h.Tells taken x y .unknown := by
  have hnever (p : Prop) : ¬ (h.Known x ∧ h.Known y ∧ p) := fun hall => hunknown ⟨hall.1, hall.2.1⟩
  exact ⟨by simp only [hunknown, not_false_eq_true], by simp only [hnever, reduceCtorEq],
    by simp only [hnever, reduceCtorEq]⟩

theorem tells_of_known (hx : h.Known x) (hy : h.Known y) {c : Prop} [Decidable c]
    (hc : c ↔ Relation.TransGen (Links taken) y x) :
    h.Tells taken x y (if c then .ancestor else .notAncestor) := by
  by_cases hyes : c
  · have hlinks := hc.1 hyes
    rw [if_pos hyes]
    exact ⟨by simp [hx, hy], by simp [hx, hy, hlinks], by simp [hx, hy, hlinks]⟩
  · have hlinks := mt hc.2 hyes
    rw [if_neg hyes]
    exact ⟨by simp [hx, hy], by simp [hx, hy, hlinks], by simp [hx, hy, hlinks]⟩

-- The frontier tells the ancestors of a block that is not recorded.
theorem Sound.tells_hot (hs : h.Sound taken first) (hd : Distinct taken first.blockRoot) (hne : x ≠ y)
    (hx : ¬ h.Recorded x) (hy : ¬ h.Recorded y) :
    h.Tells taken x y (h.frontier.tree.ancestry x y) := by
  unfold ForkTree.ancestry
  rw [if_neg hne]
  cases hp : h.frontier.tree.blocks[x]? with
  | none =>
    apply tells_unknown
    intro hknown
    obtain ⟨p, hp'⟩ := (hs.known_iff hx).1 hknown.1
    rw [hp] at hp'
    cases hp'
  | some p =>
    cases hq : h.frontier.tree.blocks[y]? with
    | none =>
      apply tells_unknown
      intro hknown
      obtain ⟨q, hq'⟩ := (hs.known_iff hy).1 hknown.2
      rw [hq] at hq'
      cases hq'
    | some q =>
      have hqMem := hs.tree.mem_of_blocks hq
      obtain ⟨path, last, hbranch, rfl, hchronicle⟩ := hs.chronicle_of_hot hq
      refine tells_of_known ((hs.known_iff hx).2 ⟨p, hp⟩) ((hs.known_iff hy).2 ⟨q, hq⟩) ?_
      rw [hchronicle.descends_iff hd x]
      constructor
      · -- The walk ends at a node of the branch, whose summary is in the chronicle.
        rintro ⟨hslot, hclimb⟩
        obtain ⟨node, hnode⟩ := (Lookup.mem_iff_exists _ _).1 (hs.tree.mem_of_blocks hp)
        have hentry := hs.tree.mem_of_descends hbranch ⟨_, hclimb⟩ hnode (hs.ne_anchor hp hx)
        refine ⟨hne, node.entry.summary, List.mem_append_right _ (List.mem_map_of_mem hentry), ?_⟩
        exact (congrArg Position.root (hs.tree.stored p node hnode)).trans (hs.tree.root_of_blocks hp)
      · rintro ⟨-, s, hsLog, hsRoot⟩
        rcases List.mem_append.1 hsLog with hsLog | hsPath
        · exact absurd ⟨s, hsLog, hsRoot⟩ hx
        · obtain ⟨e, he, rfl⟩ := List.mem_map.1 hsPath
          obtain ⟨r, node, ⟨n, hn⟩, hnode, -, rfl⟩ := hbranch.exists_node he
          have hrMem : r ∈ h.frontier.tree.nodes := Lookup.mem_of_eq_some hnode
          have hroot : r.root = x := by
            rw [← hs.tree.stored r node hnode]
            exact hsRoot
          -- The entry belongs to the run of the position that is indexed for its block.
          obtain ⟨origin, horigin, -, hclimb⟩ := hs.tree.exists_origin hrMem
          rw [hroot, hp] at horigin
          cases horigin
          have hdescends : h.frontier.tree.Descends q p :=
            ForkTree.Descends.trans ⟨n, hn⟩ ⟨_, hclimb⟩
          have hpq : q ≠ p := by
            rintro rfl
            exact hne ((hs.tree.root_of_blocks hp).symm.trans (hs.tree.root_of_blocks hq))
          exact ⟨hs.tree.slot_lt_of_descends hqMem hdescends hpq,
            ((hs.tree.descends_iff hqMem).1 hdescends).2⟩

/-- Of two recorded blocks, the one whose first record is earlier is the ancestor. -/
theorem Sound.tells_recorded (hs : h.Sound taken first) (hd : Distinct taken first.blockRoot)
    (hne : x ≠ y) (hx : h.Recorded x) (hy : h.Recorded y) :
    h.Tells taken x y (h.ledger.ancestry x y) := by
  obtain ⟨before, s, after, hsplit, hchronicle, hsroot, hj, -⟩ := hs.chronicle_of_recorded hy
  obtain ⟨_, s', _, _, _, -, hi, -⟩ := hs.chronicle_of_recorded hx
  have hanswer : h.ledger.ancestry x y = if s'.slot < s.slot then .ancestor else .notAncestor := by
    unfold Ledger.ancestry
    rw [hs.ledger.opened, hi, hj]
    rfl
  have hdecides : s'.slot < s.slot ↔ Relation.TransGen (Links taken) y x := by
    rw [hs.slot_lt_iff hne hsplit hsroot hi, ← hsroot, hchronicle.descends_iff hd, hsroot]
    exact ⟨fun hq => ⟨hne, hq⟩, And.right⟩
  rw [hanswer]
  exact tells_of_known (hs.known_of_recorded hx) (hs.known_of_recorded hy) hdecides

/-- A recorded block is an ancestor of every block of the frontier. -/
theorem Sound.tells_ahead (hs : h.Sound taken first) (hd : Distinct taken first.blockRoot)
    (hne : x ≠ y) (hx : h.Recorded x) (hy : ¬ h.Recorded y) :
    h.Tells taken x y (if h.frontier.tree.blocks.contains y = true then .ancestor else .unknown) := by
  have hindexed : h.frontier.tree.blocks.contains y = true ↔
      ∃ q, h.frontier.tree.blocks[y]? = some q := by
    rw [Std.ExtTreeMap.contains_iff_mem, Lookup.mem_iff_exists]
  by_cases hcontained : h.frontier.tree.blocks.contains y = true
  · rw [if_pos hcontained]
    obtain ⟨q, hq⟩ := hindexed.1 hcontained
    obtain ⟨path, last, -, rfl, hchronicle⟩ := hs.chronicle_of_hot hq
    obtain ⟨s, hsLog, hsRoot⟩ := hx
    have hlinks := (hchronicle.descends_iff hd x).2 ⟨hne, s, List.mem_append_left _ hsLog, hsRoot⟩
    have hxKnown := hs.known_of_recorded ⟨s, hsLog, hsRoot⟩
    have hyKnown := (hs.known_iff hy).2 ⟨q, hq⟩
    exact tells_of_known (c := True) hxKnown hyKnown ⟨fun _ => hlinks, fun _ => trivial⟩
  · rw [if_neg hcontained]
    apply tells_unknown
    intro hknown
    exact hcontained (hindexed.2 ((hs.known_iff hy).1 hknown.2))

/-- The ancestors of a recorded block are recorded. -/
theorem Sound.tells_back (hs : h.Sound taken first) (hd : Distinct taken first.blockRoot)
    (hx : ¬ h.Recorded x) (hy : h.Recorded y) :
    h.Tells taken x y (if h.knows x = true then .notAncestor else .unknown) := by
  have hyKnown := hs.known_of_recorded hy
  obtain ⟨before, s, after, hsplit, hchronicle, rfl, -, -⟩ := hs.chronicle_of_recorded hy
  have hnoLinks : ¬ Relation.TransGen (Links taken) s.blockRoot x := by
    rw [hchronicle.descends_iff hd]
    intro ⟨_, q, hq, hroot⟩
    apply hx
    refine ⟨q, ?_, hroot⟩
    rw [hsplit, List.append_cons]
    exact List.mem_append_left _ hq
  have hknows := hs.knows_iff x
  by_cases hxKnown : h.knows x = true
  · rw [if_pos hxKnown]
    exact tells_of_known (c := False) (hknows.1 hxKnown) hyKnown ⟨False.elim, hnoLinks⟩
  · rw [if_neg hxKnown]
    exact tells_unknown fun hknown => hxKnown (hknows.2 hknown.1)

theorem Sound.ledger_ancestry_of_not_recorded (hs : h.Sound taken first) (hx : ¬ h.Recorded x) :
    h.ledger.ancestry x y = .unknown := by
  have hnone : h.ledger.blocks[x]? = none := by
    cases hi : h.ledger.blocks[x]? with
    | none => rfl
    | some i =>
      have hmem : x ∈ h.ledger.blocks := Lookup.mem_of_eq_some hi
      exact absurd ((hs.blocks_isSome x).1 (Std.ExtTreeMap.contains_iff_mem.2 hmem)) hx
  unfold Ledger.ancestry
  rw [hs.ledger.opened, hnone]
  rfl

theorem Sound.containsBlock_of_not_recorded (hs : h.Sound taken first) (hx : ¬ h.Recorded x) :
    h.ledger.containsBlock x = .ok false := by
  rw [Ledger.containsBlock_of_open hs.ledger.opened]
  exact congrArg Except.ok (Bool.eq_false_iff.2 (mt (hs.blocks_isSome x).1 hx))

theorem Sound.tells (hs : h.Sound taken first) (hd : Distinct taken first.blockRoot) (hne : x ≠ y) :
    h.Tells taken x y (h.ancestry x y) := by
  unfold ancestry
  rw [if_neg hne]
  by_cases hx : h.Recorded x
  · rw [(hs.recorded_iff x).2 hx]
    by_cases hy : h.Recorded y
    · rw [(hs.recorded_iff y).2 hy]
      dsimp only
      have htells := hs.tells_recorded hd hne hx hy
      cases hanswer : h.ledger.ancestry x y with
      | ancestor =>
        rw [hanswer] at htells
        exact htells
      | notAncestor =>
        rw [hanswer] at htells
        exact htells
      | unknown =>
        -- The ledger has the first slots of both.
        exact absurd ⟨hs.known_of_recorded hx, hs.known_of_recorded hy⟩ (htells.unknown.1 hanswer)
    · rw [hs.containsBlock_of_not_recorded hy]
      dsimp only
      have htells := hs.tells_ahead hd hne hx hy
      rw [Frontier.extendsAnchor_of_open hs.opened]
      cases hcontained : h.frontier.tree.blocks.contains y with
      | true =>
        rw [if_pos hcontained] at htells
        exact htells
      | false =>
        rw [hcontained] at htells
        exact htells
  · rw [hs.containsBlock_of_not_recorded hx]
    by_cases hy : h.Recorded y
    · rw [(hs.recorded_iff y).2 hy]
      dsimp only
      rw [hs.ledger_ancestry_of_not_recorded hx]
      exact hs.tells_back hd hx hy
    · rw [hs.containsBlock_of_not_recorded hy]
      have htells := hs.tells_hot hd hne hx hy
      show h.Tells taken x y (if h.frontier.poisoned then .unknown else h.frontier.tree.ancestry x y)
      rw [hs.opened]
      exact htells

/-! ## 4. Blocks that are pruned -/

/-- The frontier holds the block of a root, and is told to prune it while more calls are made. -/
def Pruned [Archive τ] (later : List Call) (h : History τ) (root : Root) : Prop :=
  ∃ entry, h.frontier.tree.block? root = some entry ∧
    entry ∈ (watch (later.map Use.call) h).sink.pruned

theorem Sound.known_iff_held (hs : h.Sound taken first) (root : Root) :
    h.Known root ↔ (∃ entry, h.frontier.tree.block? root = some entry) ∨ h.Recorded root := by
  unfold Known
  rw [hs.recorded_iff, Frontier.containsBlock_of_open hs.opened, ← Option.isSome_iff_exists]
  exact or_congr_left ⟨Except.ok.inj, congrArg Except.ok⟩

-- The ledger has no block that the frontier holds.
theorem Sound.not_recorded_of_block? (hs : h.Sound taken first) (hd : Distinct taken first.blockRoot)
    {root : Root} {entry : Snapshot} (hentry : h.frontier.tree.block? root = some entry) :
    ¬ h.Recorded root := by
  rintro ⟨s, hrecord, hroot⟩
  obtain ⟨hheld, -, -⟩ := hs.tree.block?_eq_some_iff_unfinalized.1 hentry
  have hle := (hs.earliest_of_block? hd hentry).earliest _ (.filed hrecord) hroot
  exact UInt64.not_le.2 (hs.record_slot_lt hrecord hheld) hle

section

variable [Archive τ] {later : List Call}

theorem not_pruned_of_recorded (hs : h.Sound taken first) (hd : Distinct taken first.blockRoot)
    (hx : h.Recorded x) : ¬ h.Pruned later x :=
  fun ⟨_, hentry, _⟩ => hs.not_recorded_of_block? hd hentry hx

theorem watched_play (later : List Call) (h : History τ) :
    (watch (later.map Use.call) h).unwatched = (play later h).frontier := by
  rw [unwatched_watch, perform_calls]

-- A block that is recorded in a run is carried by what the ledger took in it.
theorem recorded_play_iff (hnew : ¬ h.Recorded x) :
    (play later h).Recorded x ↔
      ∃ e ∈ (watch (later.map Use.call) h).sink.accepted, e.summary.blockRoot = x := by
  have hledger : (watch (later.map Use.call) h).sink.sink = (play later h).ledger :=
    congrArg Frontier.sink (watched_play later h)
  have hnoted := noted_watch later h
  unfold Noted at hnoted
  unfold Recorded
  rw [← hledger, hnoted]
  constructor
  · rintro ⟨s, hmem, hroot⟩
    rcases List.mem_append.1 hmem with hold | htook
    · exact absurd ⟨s, hold, hroot⟩ hnew
    · obtain ⟨e, he, rfl⟩ := List.mem_map.1 htook
      exact ⟨e, he, hroot⟩
  · rintro ⟨e, he, hroot⟩
    exact ⟨e.summary, List.mem_append_right _ (List.mem_map_of_mem he), hroot⟩

/-- A block that is known stays known unless it is pruned. -/
theorem unknown_iff_pruned (hsteady : Archive.Steady τ) (hs : h.Sound taken first)
    (hd : Distinct taken first.blockRoot) (hK : CollisionFree (hashed later h))
    (htaken : ∀ b ∈ accepted later h, taken b) (hknown : h.Known x) :
    ¬ (play later h).Known x ↔ h.Pruned later x := by
  obtain ⟨hs', hprefix⟩ := hs.play hsteady later hK htaken
  rcases (hs.known_iff_held x).1 hknown with ⟨entry, hentry⟩ | hrecorded
  · -- It stays in the tree, or what was taken carries it, unless it was pruned.
    have hgone := Frontier.pruned_iff_gone (Ledger.sink_steady hsteady) hs.tree hs.opened hs.backed
      hd.unique (later.map Call.toHot) hK htaken hentry
    have htree : (watch (later.map Use.call) h).tree = (play later h).frontier.tree :=
      congrArg Frontier.tree (watched_play later h)
    rw [← watch_calls, htree, Option.eq_none_iff_forall_ne_some] at hgone
    have hpruned : h.Pruned later x ↔ entry ∈ (watch (later.map Use.call) h).sink.pruned := by
      refine ⟨fun ⟨other, hother, hmem⟩ => ?_, fun hmem => ⟨entry, hentry, hmem⟩⟩
      cases hentry.symm.trans hother
      exact hmem
    rw [hs'.known_iff_held, recorded_play_iff (hs.not_recorded_of_block? hd hentry), hpruned, hgone, not_or]
    simp only [not_exists, not_and, ne_eq]
  · -- What is recorded stays recorded, and is not in the tree.
    obtain ⟨s, hmem, hroot⟩ := hrecorded
    have hknown' := hs'.known_of_recorded ⟨s, hprefix.subset hmem, hroot⟩
    exact iff_of_false (not_not_intro hknown') (not_pruned_of_recorded hs hd ⟨s, hmem, hroot⟩)

end

/-! ## 5. Runs -/

-- Two right answers about one pair of blocks are the same unless one of them is unknown.
theorem Tells.same {h' : History τ} {a a' : Ancestry} (ha : h.Tells taken x y a)
    (ha' : h'.Tells taken x y a') (hne : a ≠ .unknown) (hne' : a' ≠ .unknown) : a' = a := by
  cases a with
  | unknown => exact absurd rfl hne
  | ancestor =>
    have hlinks := (ha.ancestor.1 rfl).2.2
    cases a' with
    | unknown => exact absurd rfl hne'
    | ancestor => rfl
    | notAncestor => exact absurd hlinks (ha'.notAncestor.1 rfl).2.2
  | notAncestor =>
    have hlinks := (ha.notAncestor.1 rfl).2.2
    cases a' with
    | unknown => exact absurd rfl hne'
    | ancestor => exact absurd (ha'.ancestor.1 rfl).2.2 hlinks
    | notAncestor => rfl

/-- What becomes of the answers of `h` while more calls are made. -/
structure Lasts [Archive τ] (later : List Call) (h : History τ) : Prop where
  -- What is pruned is noted by a watch, which changes nothing.
  watched : (watch (later.map Use.call) h).unwatched = (play later h).frontier
  same : ∀ x y, h.ancestry x y ≠ .unknown → (play later h).ancestry x y ≠ .unknown →
    (play later h).ancestry x y = h.ancestry x y
  forgotten : ∀ x y, h.ancestry x y ≠ .unknown →
    ((play later h).ancestry x y = .unknown ↔ x ≠ y ∧ (h.Pruned later x ∨ h.Pruned later y))

theorem ancestry_self (h : History τ) (x : Root) : h.ancestry x x = .notAncestor := if_pos rfl

theorem lasts_of_sound [Archive τ] (hsteady : Archive.Steady τ) (hs : h.Sound taken first)
    (hd : Distinct taken first.blockRoot) {later : List Call} (hK : CollisionFree (hashed later h))
    (htaken : ∀ b ∈ accepted later h, taken b) : h.Lasts later := by
  obtain ⟨hs', -⟩ := hs.play hsteady later hK htaken
  refine ⟨watched_play later h, fun x y hnow hthen => ?_, fun x y hnow => ?_⟩
  · by_cases hxy : x = y
    · rw [hxy, ancestry_self, ancestry_self]
    · exact (hs.tells hd hxy).same (hs'.tells hd hxy) hnow hthen
  · by_cases hxy : x = y
    · rw [hxy, ancestry_self]
      exact ⟨fun heq => (by cases heq), fun hpruned => absurd rfl hpruned.1⟩
    · obtain ⟨hx, hy⟩ := Classical.not_not.1 (mt (hs.tells hd hxy).unknown.2 hnow)
      rw [(hs'.tells hd hxy).unknown, not_and_or, unknown_iff_pruned hsteady hs hd hK htaken hx,
        unknown_iff_pruned hsteady hs hd hK htaken hy]
      exact (and_iff_right hxy).symm

/-- After any run of calls on a history whose archive may refuse but does not break off: no block is its
own ancestor, the answer about two blocks is unknown exactly if one of them is held by neither region
and otherwise says whether the parent roots of accepted blocks lead from one to the other, and two
definite answers about a pair are the same whenever they are given; after a definite answer, the pair
becomes unknown exactly by pruning one of its blocks. -/
theorem ancestry_of_run [Archive τ] (hsteady : Archive.Steady τ) {anchor : Snapshot}
    {specs : Spec → Prop} (hanchor : anchor.state.Reached specs) {spec : Spec} {archive : τ}
    (hstart : start anchor spec archive = .ok h) (calls : List Call)
    (hK : CollisionFree (hashed calls h)) :
    (∀ x, (play calls h).ancestry x x = .notAncestor) ∧
      (∀ x y, x ≠ y →
        (play calls h).Tells (· ∈ accepted calls h) x y ((play calls h).ancestry x y)) ∧
      ∀ later, CollisionFree (hashed (calls ++ later) h) → (play calls h).Lasts later := by
  have hs := sound_of_start hsteady hanchor hstart calls hK
  have hd := distinct_of_start hanchor hstart calls hK
  refine ⟨ancestry_self _, fun x y hne => hs.tells hd hne, fun later hKlater => ?_⟩
  have hd' := distinct_of_start hanchor hstart (calls ++ later) hKlater
  rw [accepted_append] at hd'
  rw [hashed_append] at hKlater
  -- The answers are right by all blocks that are taken in the end, so the later ones are compared by these.
  obtain ⟨hall, -⟩ := (sound_start hanchor hstart _).play hsteady calls hK
    fun b hb => List.mem_append_left (accepted later (play calls h)) hb
  exact lasts_of_sound hsteady hall hd' hKlater.right fun b hb => List.mem_append_right _ hb

open Frontier (tinyAnchor tinySecond)

-- Two blocks are added to the anchor.
def tinyForked : List Call := Frontier.tinySiblings.map fun b => .hot (.addBlock b)

-- The checkpoint finalizes one of them, and the other one is forgotten.
theorem evaluated_forked :
    CollisionFree (hashed (tinyForked ++ [tinyCheckpoint]) tinyHistory) ∧
      (play tinyForked tinyHistory).ancestry tinyAnchor.position.root tinySecond.root = .ancestor ∧
      (play [tinyCheckpoint] (play tinyForked tinyHistory)).ancestry tinyAnchor.position.root
        tinySecond.root = .unknown := by
  decide +kernel

theorem ancestry_of_run_tiny :
    CollisionFree (hashed tinyForked tinyHistory) ∧
      CollisionFree (hashed (tinyForked ++ [tinyCheckpoint]) tinyHistory) ∧
      (play tinyForked tinyHistory).ancestry tinyAnchor.position.root tinySecond.root = .ancestor ∧
      Relation.TransGen (Links (· ∈ accepted tinyForked tinyHistory)) tinySecond.root
        tinyAnchor.position.root ∧
      (play [tinyCheckpoint] (play tinyForked tinyHistory)).ancestry tinyAnchor.position.root
        tinySecond.root = .unknown ∧
      (play tinyForked tinyHistory).Pruned [tinyCheckpoint] tinySecond.root := by
  obtain ⟨hKlater, hnow, hthen⟩ := evaluated_forked
  have hK := hKlater
  rw [hashed_append] at hK
  obtain ⟨hself, htells, hlasts⟩ :=
    ancestry_of_run Ledger.tables_steady Frontier.reached_tiny start_tiny tinyForked hK.left
  have hne : tinyAnchor.position.root ≠ tinySecond.root := fun heq => by
    rw [heq, hself] at hnow
    cases hnow
  obtain ⟨-, -, hlinks⟩ := (htells _ _ hne).ancestor.1 hnow
  have hforgotten := (hlasts [tinyCheckpoint] hKlater).forgotten tinyAnchor.position.root tinySecond.root
    (by rw [hnow]; decide)
  refine ⟨hK.left, hKlater, hnow, hlinks, hthen, (hforgotten.1 hthen).2.resolve_left ?_⟩
  -- The anchor is recorded, so it is not what was pruned.
  obtain ⟨hs, hprefix⟩ := (sound_start Frontier.reached_tiny start_tiny _).play Ledger.tables_steady
    tinyForked hK.left fun _ hb => hb
  exact not_pruned_of_recorded hs (distinct_of_start Frontier.reached_tiny start_tiny tinyForked hK.left)
    ⟨tinyAnchor.summary, hprefix.subset (List.mem_singleton_self _), rfl⟩

end BeaconHistory.History
