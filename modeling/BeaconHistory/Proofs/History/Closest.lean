import BeaconHistory.Proofs.Entry
import BeaconHistory.Proofs.History.Exclusive

/-!
# History.Closest — the latest entry that carries a block

Each region looks up the first entry of a block and walks along its run up to a slot.  The run of one
block may start among the records and end after the anchor, where the frontier has the rest of it.
Main statement: after any run of calls the walks together find the latest of all entries that carry the
block up to the slot, and find nothing only if there is none.
-/

namespace BeaconHistory.History

variable {τ : Type} [Archive τ] {taken : Block → Prop} {first : Summary} {h : History τ}

/-- How the closest entry of each block up to each slot is looked up. -/
structure FindsClosest (h : History τ) : Prop where
  -- The answer is the latest of all entries of the block up to the slot, wherever they are held.
  found : ∀ (root : Root) (bound : UInt64) (e : Entry),
    Chain.closest h root bound = .ok e ↔ Latest h.Holds Entry.summary root bound e
  -- There is an answer as soon as there is any such entry.
  exists_iff : ∀ (root : Root) (bound : UInt64), (∃ e, Chain.closest h root bound = .ok e) ↔
    ∃ e, h.Holds e ∧ e.summary.blockRoot = root ∧ e.summary.slot ≤ bound
  missing : ∀ (root : Root) (bound : UInt64) (error : Query.Error),
    Chain.closest h root bound = .error error → error.isNotFound = true
  -- The frontier is asked first, and has an answer only if that is later than any of the ledger.
  frontier : ∀ (root : Root) (bound : UInt64) (e : Entry), Chain.closest h.frontier root bound = .ok e →
    Chain.closest h root bound = .ok e ∧
      ∀ e', Chain.closest h.ledger root bound = .ok e' → e'.summary.slot < e.summary.slot

theorem Sound.closest_frontier (hs : h.Sound taken first) (hd : Distinct taken first.blockRoot)
    {root : Root} {bound : UInt64} {e e' : Entry} (he : Chain.closest h.frontier root bound = .ok e)
    (he' : Chain.closest h.ledger root bound = .ok e') : e'.summary.slot < e.summary.slot := by
  obtain ⟨x, hx, rfl⟩ := (Frontier.closest_eq_ok_iff hs.opened).1 he
  obtain ⟨s, hlatest, rfl⟩ := (hs.ledger.closest_eq_ok_iff hd).1 he'
  exact hs.record_slot_lt hlatest.held (hs.tree.latest_of_closest hx).held

theorem Sound.findsClosest (hs : h.Sound taken first) (hd : Distinct taken first.blockRoot) :
    h.FindsClosest := by
  constructor
  case found => exact fun root bound e => hs.closest_eq_ok_iff hd
  case exists_iff =>
    intro root bound
    constructor
    · rintro ⟨e, he⟩
      have hlatest := (hs.closest_eq_ok_iff hd).1 he
      exact ⟨e, hlatest.held, hlatest.root, hlatest.slot_le⟩
    · rintro ⟨e, hheld, hroot, hbound⟩
      exact hs.exists_closest hd hheld hroot hbound
  case missing =>
    intro root bound error herror
    obtain ⟨-, -, -, -, -, hmissing⟩ := hs.notFound (q := .closest root bound) herror
    exact hmissing
  case frontier =>
    intro root bound e he
    refine ⟨?_, fun e' he' => hs.closest_frontier hd he he'⟩
    show h.lookup (fun c => Chain.closest c root bound) = .ok e
    exact lookup_eq_ok_iff.2 (Or.inl he)

/-- After any run of calls on a history whose archive may refuse but does not break off: for each block
and slot, the latest entry up to the slot that carries the block is found out of all entries after the
anchor and all records, and if there is none, that is what is answered. -/
theorem closest_of_run (hsteady : Archive.Steady τ) {anchor : Snapshot} {specs : Spec → Prop}
    (hanchor : anchor.state.Reached specs) {spec : Spec} {archive : τ}
    (hstart : start anchor spec archive = .ok h) (calls : List Call)
    (hK : CollisionFree (hashed calls h)) : (play calls h).FindsClosest :=
  (sound_of_start hsteady hanchor hstart calls hK).findsClosest
    (distinct_of_start hanchor hstart calls hK)

-- The block of the small history has become the anchor, and is found among the records.
theorem closest_of_run_tiny :
    CollisionFree (hashed tinyRun tinyHistory) ∧
      ∃ e, Chain.closest (play tinyRun tinyHistory) tinyBlock.root tinyBlock.slot = .ok e ∧
        e.summary = .ofBlock tinyBlock := by
  have hfinds :=
    closest_of_run Ledger.tables_steady Frontier.reached_tiny start_tiny tinyRun collisionFree_tiny
  have hs := sound_of_start Ledger.tables_steady Frontier.reached_tiny start_tiny tinyRun collisionFree_tiny
  have hd := distinct_of_start Frontier.reached_tiny start_tiny tinyRun collisionFree_tiny
  obtain ⟨-, -, -, -, -, -, hserved, -⟩ := evaluated_tiny
  obtain ⟨e, hanswer, hsummary⟩ := Entry.exists_of_toOption hserved
  have hheld := ((hs.byBlockRoot_eq_ok_iff hd).1 hanswer).held
  have hslot : e.summary.slot = tinyBlock.slot := by
    rw [hsummary]
    rfl
  have hroot : e.summary.blockRoot = tinyBlock.root := by
    rw [hsummary]
    rfl
  have hlatest : Latest (play tinyRun tinyHistory).Holds Entry.summary tinyBlock.root tinyBlock.slot e :=
    ⟨hheld, hroot, UInt64.le_of_eq hslot, fun e' _ _ hle => UInt64.le_trans hle (UInt64.le_of_eq hslot.symm)⟩
  exact ⟨collisionFree_tiny, e, (hfinds.found _ _ e).2 hlatest, hsummary⟩

end BeaconHistory.History
