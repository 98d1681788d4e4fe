import BeaconHistory.Proofs.ForkTree.Lookups
import BeaconHistory.Proofs.History.Run
import BeaconHistory.Proofs.Ledger.Lookups

/-!
# History.Contents — what a history serves

The frontier holds the entries after its anchor and the ledger those up to it, so asking the frontier
first and then the ledger neither hides an entry nor serves one twice.  Main statements: each lookup of a
history finds exactly the entry it is named for, out of all that the two regions hold.
-/

namespace BeaconHistory

/-! ## 1. The frontier -/

namespace Frontier

variable {σ : Type} {f : Frontier σ} {entry : Entry}

theorem serve_eq_ok_iff {missing : Query.Error} {found : Option Snapshot} :
    serve missing found = .ok entry ↔ ∃ e, found = some e ∧ entry = .node e := by
  cases found with
  | none => exact ⟨fun h => (by cases h), fun ⟨_, h, _⟩ => (by cases h)⟩
  | some e =>
    constructor
    · intro h
      exact ⟨e, rfl, (Except.ok.inj h).symm⟩
    · rintro ⟨_, heq, rfl⟩
      cases heq
      rfl

theorem byPosition_eq_ok_iff (h : f.poisoned = false) {p : Position} :
    Chain.byPosition f p = .ok entry ↔ ∃ e, f.tree.unfinalized? p = some e ∧ entry = .node e := by
  show (do serve _ ((← f.served).unfinalized? p)) = _ ↔ _
  rw [served_of_open h]
  exact serve_eq_ok_iff

theorem byStateRoot_eq_ok_iff (h : f.poisoned = false) {root : Root} :
    Chain.byStateRoot f root = .ok entry ↔ ∃ e, f.tree.byStateRoot? root = some e ∧ entry = .node e := by
  show (do serve _ ((← f.served).byStateRoot? root)) = _ ↔ _
  rw [served_of_open h]
  exact serve_eq_ok_iff

theorem byBlockRoot_eq_ok_iff (h : f.poisoned = false) {root : Root} :
    Chain.byBlockRoot f root = .ok entry ↔ ∃ e, f.tree.block? root = some e ∧ entry = .node e := by
  show (do serve _ ((← f.served).block? root)) = _ ↔ _
  rw [served_of_open h]
  exact serve_eq_ok_iff

theorem closest_eq_ok_iff (h : f.poisoned = false) {root : Root} {bound : UInt64} :
    Chain.closest f root bound = .ok entry ↔ ∃ e, f.tree.closest root bound = .ok e ∧ entry = .node e := by
  show (do return Entry.node (← (← f.served).closest root bound)) = _ ↔ _
  rw [served_of_open h]
  show (do return Entry.node (← f.tree.closest root bound)) = _ ↔ _
  cases f.tree.closest root bound with
  | error e => exact ⟨fun h => (by cases h), fun ⟨_, h, _⟩ => (by cases h)⟩
  | ok e =>
    constructor
    · intro h
      exact ⟨e, rfl, (Except.ok.inj h).symm⟩
    · rintro ⟨_, heq, rfl⟩
      cases heq
      rfl

end Frontier

namespace History

variable {τ : Type} {h : History τ} {taken : Block → Prop} {first : Summary} {e e' : Entry}

/-! ## 2. Both regions -/

/-- What a history holds: the entries after the anchor and the records. -/
inductive Holds (h : History τ) : Entry → Prop where
  | node {x : Snapshot} (hx : h.frontier.tree.Unfinalized x) : Holds h (.node x)
  | filed {s : Summary} (hs : s ∈ h.ledger.records.toList) : Holds h (.filed s h.ledger.spec)

/-- Finalized entries are canonical, and those that the head descends from. -/
def Canonical (h : History τ) : Entry → Prop
  | .node x => h.frontier.tree.Descends h.frontier.tree.head x.position
  | _ => True

theorem Sound.record_slot_le (hs : h.Sound taken first) {s : Summary}
    (hrecord : s ∈ h.ledger.records.toList) : s.slot ≤ h.frontier.tree.anchor.slot := by
  obtain ⟨last, hlog, hlast⟩ := hs.exists_last
  have hle := hlog.slot_le_last hrecord
  rw [show last.slot = h.frontier.tree.anchor.slot from congrArg Position.slot hlast] at hle
  exact UInt64.le_iff_toNat_le.2 hle

theorem Sound.record_slot_lt (hs : h.Sound taken first) {s : Summary}
    (hrecord : s ∈ h.ledger.records.toList) {x : Snapshot} (hx : h.frontier.tree.Unfinalized x) :
    s.slot < x.summary.slot :=
  UInt64.lt_of_le_of_lt (hs.record_slot_le hrecord) (hs.tree.anchor_slot_lt hx)

/-- An entry is known by its position, whichever region holds it. -/
theorem Sound.holds_unique (hs : h.Sound taken first) (he : h.Holds e) (he' : h.Holds e')
    (hposition : e.position = e'.position) : e = e' := by
  have hslot : e.slot = e'.slot := congrArg Position.slot hposition
  cases he with
  | node hx =>
    cases he' with
    | node hx' => rw [hs.tree.unfinalized_unique hx hx' hposition]
    | filed hrecord => exact absurd hslot.symm (UInt64.ne_of_lt (hs.record_slot_lt hrecord hx))
  | filed hrecord =>
    cases he' with
    | node hx => exact absurd hslot (UInt64.ne_of_lt (hs.record_slot_lt hrecord hx))
    | filed hrecord' => rw [hs.ledger.record_unique hrecord hrecord' hslot]

theorem lookup_eq_ok_iff {query : {γ : Type} → [Chain γ] → γ → Except Query.Error Entry} [Archive τ] :
    h.lookup query = .ok e ↔
      query h.frontier = .ok e ∨ (¬ ∃ x, query h.frontier = .ok x) ∧ query h.ledger = .ok e := by
  unfold lookup
  cases hhot : query h.frontier with
  | ok x => simp [hhot]
  | error inHot => cases hcold : query h.ledger <;> simp [hhot, hcold]

/-! ## 3. By position and state -/

section

variable [Archive τ]

theorem Sound.byPosition_eq_ok_iff (hs : h.Sound taken first) {p : Position} :
    Chain.byPosition h p = .ok e ↔ h.Holds e ∧ e.position = p := by
  show h.lookup (fun c => Chain.byPosition c p) = _ ↔ _
  rw [lookup_eq_ok_iff]
  simp only [Frontier.byPosition_eq_ok_iff hs.opened, hs.ledger.byPosition_eq_ok_iff,
    hs.tree.unfinalized?_eq_some_iff]
  constructor
  · rintro (⟨x, ⟨hx, hposition⟩, rfl⟩ | ⟨-, s, hrecord, hposition, rfl⟩)
    · exact ⟨.node hx, hposition⟩
    · exact ⟨.filed hrecord, hposition⟩
  · rintro ⟨he, rfl⟩
    cases he with
    | node hx => exact Or.inl ⟨_, ⟨hx, rfl⟩, rfl⟩
    | filed hrecord =>
      refine Or.inr ⟨?_, _, hrecord, rfl, rfl⟩
      rintro ⟨entry, x, ⟨hx, hposition⟩, -⟩
      cases hs.holds_unique (.node hx) (.filed hrecord) hposition

/-- As long as no two entries have states of one root, an entry is found by that root. -/
theorem Sound.byStateRoot_eq_ok_iff (hs : h.Sound taken first) (hhot : h.frontier.tree.Indexed)
    (hcold : h.ledger.Indexed)
    (hpins : ∀ e e', h.Holds e → h.Holds e' → e.summary.stateRoot = e'.summary.stateRoot → e = e')
    {root : Root} :
    Chain.byStateRoot h root = .ok e ↔ h.Holds e ∧ e.summary.stateRoot = root := by
  show h.lookup (fun c => Chain.byStateRoot c root) = _ ↔ _
  rw [lookup_eq_ok_iff]
  simp only [Frontier.byStateRoot_eq_ok_iff hs.opened, hs.ledger.byStateRoot_eq_ok_iff hcold,
    hs.tree.byStateRoot?_eq_some_iff hhot]
  constructor
  · rintro (⟨x, ⟨hx, hroot⟩, rfl⟩ | ⟨-, s, hrecord, hroot, rfl⟩)
    · exact ⟨.node hx, hroot⟩
    · exact ⟨.filed hrecord, hroot⟩
  · rintro ⟨he, rfl⟩
    cases he with
    | node hx => exact Or.inl ⟨_, ⟨hx, rfl⟩, rfl⟩
    | filed hrecord =>
      refine Or.inr ⟨?_, _, hrecord, rfl, rfl⟩
      rintro ⟨entry, x, ⟨hx, hroot⟩, -⟩
      cases hpins _ _ (.node hx) (.filed hrecord) hroot

end

/-! ## 4. By block -/

-- A block of the frontier is the first entry that carries it, and the ledger has none.
theorem Sound.earliest_of_block? (hs : h.Sound taken first) (hd : Distinct taken first.blockRoot)
    {root : Root} {x : Snapshot} (hx : h.frontier.tree.block? root = some x) :
    Earliest h.Holds Entry.summary root (.node x) := by
  obtain ⟨hheld, hroot, hblock⟩ := hs.tree.block?_eq_some_iff_unfinalized.1 hx
  refine ⟨.node hheld, hroot, fun e' he' hroot' => ?_⟩
  obtain ⟨node, hnode, hne, rfl⟩ := hs.tree.exists_of_unfinalized hheld
  have horigin : h.frontier.tree.blocks[root]? = some node.entry.position :=
    (hs.tree.blocks_iff _ _).2 ⟨hroot, Or.inr ⟨hne, node, hnode, hblock⟩⟩
  cases he' with
  | @node x' hx' =>
    obtain ⟨node', hnode', -, rfl⟩ := hs.tree.exists_of_unfinalized hx'
    rw [← show node'.entry.position.root = root from hroot'] at horigin
    exact hs.tree.origin_slot_le (Lookup.mem_of_eq_some hnode') horigin
  | @filed s hrecord =>
    exfalso
    obtain ⟨last, hlog, hlast⟩ := hs.exists_last
    have hslot : last.slot < node.entry.summary.slot := hs.record_slot_lt hlog.last_mem hheld
    rcases hs.backed _ node hnode hne with hempty | ⟨b, hb, heq⟩
    · rw [hempty] at hblock
      cases hblock
    · rw [heq] at hslot hroot
      exact hlog.blockRoot_ne hd hb (UInt64.lt_iff_toNat_lt.1 hslot) hrecord (hroot'.trans hroot.symm)

theorem Sound.earliest_of_record (hs : h.Sound taken first) {root : Root} {s : Summary}
    (hearliest : Earliest (· ∈ h.ledger.records.toList) id root s) :
    Earliest h.Holds Entry.summary root (.filed s h.ledger.spec) := by
  refine ⟨.filed hearliest.held, hearliest.root, fun e' he' hroot' => ?_⟩
  cases he' with
  | node hx => exact UInt64.le_of_lt (hs.record_slot_lt hearliest.held hx)
  | filed hrecord => exact hearliest.earliest _ hrecord hroot'

-- A block whose entries all come after the anchor is a block of the frontier.
theorem Sound.exists_block? (hs : h.Sound taken first) {root : Root} {x : Snapshot}
    (hearliest : Earliest h.Holds Entry.summary root (.node x)) :
    ∃ block, h.frontier.tree.block? root = some block := by
  have hheld : h.frontier.tree.Unfinalized x := by
    have hheld := hearliest.held
    cases hheld with
    | node hx => exact hx
  obtain ⟨node, hnode, -, rfl⟩ := hs.tree.exists_of_unfinalized hheld
  obtain ⟨origin, horigin, -, -⟩ :=
    hs.tree.exists_origin (Lookup.mem_of_eq_some hnode)
  rw [show node.entry.position.root = root from hearliest.root] at horigin
  obtain ⟨block, hblock⟩ := (Lookup.mem_iff_exists _ _).1 (hs.tree.mem_of_blocks horigin)
  refine ⟨block.entry, hs.tree.block?_eq_some_iff.2 ⟨origin, block, horigin, ?_, hblock, rfl⟩⟩
  -- The anchor is recorded, so it would be an earlier entry of the block.
  rintro rfl
  obtain ⟨s, hs', hposition⟩ := hs.exists_last
  have hsroot : s.blockRoot = root :=
    (congrArg Position.root hposition).trans (hs.tree.root_of_blocks horigin)
  have hle := hearliest.earliest _ (.filed hs'.last_mem) hsroot
  exact UInt64.not_le.2 (hs.record_slot_lt hs'.last_mem hheld) hle

variable [Archive τ]

theorem Sound.byBlockRoot_eq_ok_iff (hs : h.Sound taken first) (hd : Distinct taken first.blockRoot)
    {root : Root} :
    Chain.byBlockRoot h root = .ok e ↔ Earliest h.Holds Entry.summary root e := by
  show h.lookup (fun c => Chain.byBlockRoot c root) = _ ↔ _
  rw [lookup_eq_ok_iff]
  simp only [Frontier.byBlockRoot_eq_ok_iff hs.opened, hs.ledger.byBlockRoot_eq_ok_iff]
  constructor
  · rintro (⟨x, hx, rfl⟩ | ⟨-, s, hearliest, rfl⟩)
    · exact hs.earliest_of_block? hd hx
    · exact hs.earliest_of_record hearliest
  · intro he
    cases hx : h.frontier.tree.block? root with
    | some x =>
      have hsame := (hs.earliest_of_block? hd hx).position_eq he
      exact Or.inl ⟨x, rfl, (hs.holds_unique (hs.earliest_of_block? hd hx).held he.held hsame).symm⟩
    | none =>
      refine Or.inr ⟨fun ⟨_, _, hx, _⟩ => (by cases hx), ?_⟩
      have hheld := he.held
      cases hheld with
      | node _ =>
        obtain ⟨block, hblock⟩ := hs.exists_block? he
        rw [hx] at hblock
        cases hblock
      | @filed s hrecord =>
        exact ⟨s, ⟨hrecord, he.root, fun s' hs' hroot => he.earliest _ (.filed hs') hroot⟩, rfl⟩

/-- The closest entry is the latest one, wherever it is held. -/
theorem Sound.closest_eq_ok_iff (hs : h.Sound taken first) (hd : Distinct taken first.blockRoot)
    {root : Root} {bound : UInt64} :
    Chain.closest h root bound = .ok e ↔ Latest h.Holds Entry.summary root bound e := by
  show h.lookup (fun c => Chain.closest c root bound) = _ ↔ _
  rw [lookup_eq_ok_iff]
  simp only [Frontier.closest_eq_ok_iff hs.opened]
  rw [show Chain.closest h.ledger root bound = h.ledger.closest root bound from rfl,
    hs.ledger.closest_eq_ok_iff hd]
  -- An entry of the frontier is later than any record.
  have hhot {x : Snapshot} (hx : h.frontier.tree.closest root bound = .ok x) :
      Latest h.Holds Entry.summary root bound (.node x) := by
    have hlatest := hs.tree.latest_of_closest hx
    refine ⟨.node hlatest.held, hlatest.root, hlatest.slot_le, fun e' he' hroot' hle' => ?_⟩
    cases he' with
    | node hx' => exact hlatest.latest _ hx' hroot' hle'
    | filed hrecord => exact UInt64.le_of_lt (hs.record_slot_lt hrecord hlatest.held)
  constructor
  · rintro (⟨x, hx, rfl⟩ | ⟨hnone, s, hlatest, rfl⟩)
    · exact hhot hx
    · refine ⟨.filed hlatest.held, hlatest.root, hlatest.slot_le, fun e' he' hroot' hle' => ?_⟩
      cases he' with
      | node hx' =>
        obtain ⟨x, hx⟩ := hs.tree.exists_closest hx' hroot' hle'
        exact absurd ⟨_, x, hx, rfl⟩ hnone
      | filed hrecord => exact hlatest.latest _ hrecord hroot' hle'
  · intro he
    cases hx : h.frontier.tree.closest root bound with
    | ok x =>
      have hsame := (hhot hx).position_eq he
      exact Or.inl ⟨x, rfl, (hs.holds_unique (hhot hx).held he.held hsame).symm⟩
    | error missing =>
      refine Or.inr ⟨fun ⟨_, _, hx, _⟩ => (by cases hx), ?_⟩
      have hheld := he.held
      cases hheld with
      | node hx' =>
        obtain ⟨x, hsome⟩ := hs.tree.exists_closest hx' he.root he.slot_le
        rw [hx] at hsome
        cases hsome
      | @filed s hrecord =>
        exact ⟨s, ⟨hrecord, he.root, he.slot_le,
          fun s' hs' hroot hle => he.latest _ (.filed hs') hroot hle⟩, rfl⟩

theorem Sound.exists_closest (hs : h.Sound taken first) (hd : Distinct taken first.blockRoot)
    (he : h.Holds e) {root : Root} (hroot : e.summary.blockRoot = root) {bound : UInt64}
    (hbound : e.summary.slot ≤ bound) : ∃ e', Chain.closest h root bound = .ok e' := by
  have hanswer (e' : Entry) : Chain.closest h root bound = .ok e' ↔
      Chain.closest h.frontier root bound = .ok e' ∨
        (¬ ∃ x, Chain.closest h.frontier root bound = .ok x) ∧ h.ledger.closest root bound = .ok e' :=
    lookup_eq_ok_iff
  simp only [hanswer]
  by_cases hhot : ∃ x, Chain.closest h.frontier root bound = .ok x
  · exact hhot.imp fun _ => Or.inl
  · cases he with
    | node hx =>
      obtain ⟨x, hx⟩ := hs.tree.exists_closest hx hroot hbound
      exact absurd ⟨_, (Frontier.closest_eq_ok_iff hs.opened).2 ⟨x, hx, rfl⟩⟩ hhot
    | filed hrecord =>
      obtain ⟨q, hq⟩ := hs.ledger.exists_latest hd hrecord hroot hbound
      exact ⟨_, Or.inr ⟨hhot, (hs.ledger.closest_eq_ok_iff hd).2 ⟨q, hq, rfl⟩⟩⟩

/-! ## 5. By slot -/

theorem Sound.bySlot_eq_ok_iff (hs : h.Sound taken first) {slot : UInt64} :
    Chain.bySlot h slot = .ok e ↔ h.Holds e ∧ e.slot = slot ∧ h.Canonical e := by
  show h.lookup (fun c => Chain.bySlot c slot) = _ ↔ _
  rw [lookup_eq_ok_iff]
  simp only [Frontier.bySlot_of_open hs.opened, Frontier.serve_eq_ok_iff,
    hs.tree.canonical?_eq_some_iff]
  rw [show Chain.bySlot h.ledger slot = h.ledger.bySlot slot from rfl, hs.ledger.bySlot_eq_ok_iff]
  constructor
  · rintro (⟨x, ⟨hx, hslot, hdescends⟩, rfl⟩ | ⟨-, s, hrecord, hslot, rfl⟩)
    · exact ⟨.node hx, hslot, hdescends⟩
    · exact ⟨.filed hrecord, hslot, trivial⟩
  · rintro ⟨he, rfl, hcanonical⟩
    cases he with
    | node hx => exact Or.inl ⟨_, ⟨hx, rfl, hcanonical⟩, rfl⟩
    | filed hrecord =>
      refine Or.inr ⟨?_, _, hrecord, rfl, rfl⟩
      rintro ⟨entry, x, ⟨hx, hslot, -⟩, -⟩
      exact UInt64.lt_irrefl _ (hslot ▸ hs.record_slot_lt hrecord hx)

-- A slot is answered by its record or by the branch of the head.
theorem Sound.exists_bySlot_iff (hs : h.Sound taken first) {slot : UInt64} {s : Summary} :
    (∃ e, Chain.bySlot h slot = .ok e ∧ e.summary = s) ↔
      s.slot = slot ∧ (s ∈ h.ledger.records.toList ∨ ∃ x, h.frontier.tree.Unfinalized x ∧
        h.frontier.tree.Descends h.frontier.tree.head x.position ∧ x.summary = s) := by
  simp only [hs.bySlot_eq_ok_iff]
  constructor
  · rintro ⟨e, ⟨he, rfl, hcanonical⟩, rfl⟩
    cases he with
    | node hx => exact ⟨rfl, Or.inr ⟨_, hx, hcanonical, rfl⟩⟩
    | filed hrecord => exact ⟨rfl, Or.inl hrecord⟩
  · rintro ⟨rfl, hrecord | ⟨x, hx, hcanonical, rfl⟩⟩
    · exact ⟨_, ⟨.filed hrecord, rfl, trivial⟩, rfl⟩
    · exact ⟨_, ⟨.node hx, rfl, hcanonical⟩, rfl⟩

-- Without an answer, both regions name the slot.
theorem Sound.bySlot_eq_error (hs : h.Sound taken first) {slot : UInt64}
    (hnone : ∀ e, Chain.bySlot h slot ≠ .ok e) :
    Chain.bySlot h slot = .error (.notFound (.unknownSlot slot) (.unknownSlot slot)) := by
  have hanswer : Chain.bySlot h slot = h.lookup (fun c => Chain.bySlot c slot) := rfl
  rw [hanswer] at hnone ⊢
  unfold lookup at hnone ⊢
  dsimp only at hnone ⊢
  rw [Frontier.bySlot_of_open hs.opened,
    show Chain.bySlot h.ledger slot = h.ledger.bySlot slot from rfl,
    Ledger.bySlot_of_open hs.ledger.opened] at hnone ⊢
  cases hhot : h.frontier.tree.canonical? slot with
  | some x =>
    rw [hhot] at hnone
    exact absurd rfl (hnone (.node x))
  | none =>
    rw [hhot] at hnone
    cases hcold : h.ledger.record? slot with
    | some s =>
      rw [hcold] at hnone
      exact absurd rfl (hnone (.filed s h.ledger.spec))
    | none => rfl

end History

end BeaconHistory
