import BeaconHistory.Proofs.History.Traced
import BeaconHistory.Proofs.Questions

/-!
# History.Exclusive — which region answers

A lookup asks the frontier first and then the ledger, although both have the anchor, and an empty anchor
carries a block that is older than itself.  Main statement: after any run of calls an exact question is
answered by one region at most, so it could be asked in the other order as well; no entry that a region
holds is missed; and a question without an answer is not found by either region, whose errors are given.
-/

namespace BeaconHistory

namespace History

variable {τ : Type} [Archive τ] {taken : Block → Prop} {first : Summary} {h : History τ}
  {K : List (List UInt8)} {q : Question} {e e' : Entry}

/-! ## 1. One region or none -/

theorem ask_eq (q : Question) (h : History τ) :
    q.ask h = match q.ask h.frontier with
      | .ok entry => .ok entry
      | .error inHot => match q.ask h.ledger with
        | .ok entry => .ok entry
        | .error inCold => .error (.notFound inHot inCold) := by
  cases q <;> rfl

/-- The answer to a question that is put to the ledger first. -/
def askLedgerFirst (h : History τ) (q : Question) : Except Query.Error Entry :=
  match q.ask h.ledger with
  | .ok entry => .ok entry
  | .error inCold => match q.ask h.frontier with
    | .ok entry => .ok entry
    | .error inHot => .error (.notFound inHot inCold)

theorem ask_eq_askLedgerFirst (honce : ∀ e e', q.ask h.frontier = .ok e → q.ask h.ledger ≠ .ok e') :
    q.ask h = h.askLedgerFirst q := by
  rw [ask_eq]
  unfold askLedgerFirst
  cases hhot : q.ask h.frontier with
  | ok e =>
    cases hcold : q.ask h.ledger with
    | ok e' => exact absurd hcold (honce e e' hhot)
    | error inCold => rfl
  | error inHot => cases q.ask h.ledger <;> rfl

/-- An exact question asks for what pins an entry down, so two answers would be one entry, and no entry is
in both regions. -/
theorem Sound.answered_once (hK : CollisionFree K) (hs : h.Sound taken first)
    (hd : Distinct taken first.blockRoot) (ht : h.Traced K) (hexact : q.isExact = true)
    (he : q.ask h.frontier = .ok e) : q.ask h.ledger ≠ .ok e' := by
  intro he'
  cases q with
  | stateRoot root =>
    obtain ⟨x, hx, rfl⟩ := (Frontier.byStateRoot_eq_ok_iff hs.opened).1 he
    obtain ⟨hheld, hroot⟩ := (hs.tree.byStateRoot?_eq_some_iff ht.indexed).1 hx
    obtain ⟨s, hrecord, hroot', rfl⟩ := (hs.ledger.byStateRoot_eq_ok_iff ht.ledger.indexed).1 he'
    cases ht.holds_pinned hK hs (.node hheld) (.filed hrecord) (hroot.trans hroot'.symm)
  | blockRoot root =>
    obtain ⟨x, hx, rfl⟩ := (Frontier.byBlockRoot_eq_ok_iff hs.opened).1 he
    obtain ⟨s, hearliest, rfl⟩ := hs.ledger.byBlockRoot_eq_ok_iff.1 he'
    have hhot := hs.earliest_of_block? hd hx
    have hcold := hs.earliest_of_record hearliest
    cases hs.holds_unique hhot.held hcold.held (hhot.position_eq hcold)
  | position p =>
    obtain ⟨x, hx, rfl⟩ := (Frontier.byPosition_eq_ok_iff hs.opened).1 he
    obtain ⟨hheld, hposition⟩ := hs.tree.unfinalized?_eq_some_iff.1 hx
    obtain ⟨s, hrecord, hposition', rfl⟩ := hs.ledger.byPosition_eq_ok_iff.1 he'
    cases hs.holds_unique (.node hheld) (.filed hrecord) (hposition.trans hposition'.symm)
  | slot s =>
    rw [Frontier.ask_of_open hs.opened] at he
    obtain ⟨x, hx, rfl⟩ := Frontier.serve_eq_ok_iff.1 he
    obtain ⟨hheld, hslot, -⟩ := hs.tree.canonical?_eq_some_iff.1 hx
    obtain ⟨s', hrecord, hslot', rfl⟩ := hs.ledger.bySlot_eq_ok_iff.1 he'
    have hlt := hs.record_slot_lt hrecord hheld
    rw [hslot, hslot'] at hlt
    exact UInt64.lt_irrefl _ hlt
  | closest root bound => cases hexact

/-- A question without an answer is not found by either region. -/
theorem Sound.notFound (hs : h.Sound taken first) {error : Query.Error} (he : q.ask h = .error error) :
    ∃ inHot inCold, q.ask h.frontier = .error inHot ∧ q.ask h.ledger = .error inCold ∧
      error = .notFound inHot inCold ∧ error.isNotFound = true := by
  rw [ask_eq] at he
  cases hhot : q.ask h.frontier with
  | ok e =>
    rw [hhot] at he
    cases he
  | error inHot =>
    rw [hhot] at he
    dsimp only at he
    cases hcold : q.ask h.ledger with
    | ok e =>
      rw [hcold] at he
      cases he
    | error inCold =>
      rw [hcold] at he
      cases he
      refine ⟨inHot, inCold, rfl, rfl, rfl, ?_⟩
      simp [Query.Error.isNotFound, Frontier.isNotFound_of_ask hs.opened hhot,
        Ledger.isNotFound_of_ask hs.ledger.opened hcold]

/-! ## 2. Runs -/

/-- Which region answers a question to `h` makes no difference, and no entry is missed. -/
structure Exclusive (h : History τ) : Prop where
  once : ∀ (q : Question) (e e' : Entry), q.isExact = true →
    ¬ (q.ask h.frontier = .ok e ∧ q.ask h.ledger = .ok e')
  swapped : ∀ q : Question, q.isExact = true → q.ask h = h.askLedgerFirst q
  -- A node after the anchor is found by its position and by the root of its state.
  node : ∀ (p : Position) (node : ForkTree.Node), h.frontier.tree.nodes[p]? = some node →
    h.frontier.tree.anchor.slot < p.slot → Chain.byPosition h p = .ok (.node node.entry) ∧
      Chain.byStateRoot h node.entry.summary.stateRoot = .ok (.node node.entry)
  -- So is a record.
  record : ∀ s ∈ h.ledger.records.toList, Chain.byPosition h s.position = .ok (.filed s h.ledger.spec) ∧
    Chain.byStateRoot h s.stateRoot = .ok (.filed s h.ledger.spec)
  notFound : ∀ (q : Question) (error : Query.Error), q.ask h = .error error →
    ∃ inHot inCold, q.ask h.frontier = .error inHot ∧ q.ask h.ledger = .error inCold ∧
      error = .notFound inHot inCold ∧ error.isNotFound = true

theorem Sound.exclusive (hK : CollisionFree K) (hs : h.Sound taken first)
    (hd : Distinct taken first.blockRoot) (ht : h.Traced K) : h.Exclusive := by
  refine ⟨fun q e e' hexact ⟨he, he'⟩ => hs.answered_once hK hd ht hexact he he', fun q hexact => ?_,
    fun p node hnode hslot => ?_, fun s hrecord => ?_, fun q error he => hs.notFound he⟩
  · exact ask_eq_askLedgerFirst fun e e' he => hs.answered_once hK hd ht hexact he
  · have hne : p ≠ h.frontier.tree.anchor := by
      rintro rfl
      exact UInt64.lt_irrefl _ hslot
    have hheld : h.Holds (.node node.entry) := .node ⟨p, node, hnode, hne, rfl⟩
    exact ⟨hs.byPosition_eq_ok_iff.2 ⟨hheld, hs.tree.stored p node hnode⟩,
      (ht.byStateRoot_eq_ok_iff hK hs).2 ⟨hheld, rfl⟩⟩
  · have hheld : h.Holds (.filed s h.ledger.spec) := .filed hrecord
    exact ⟨hs.byPosition_eq_ok_iff.2 ⟨hheld, rfl⟩, (ht.byStateRoot_eq_ok_iff hK hs).2 ⟨hheld, rfl⟩⟩

/-- After any run of calls on a history whose archive may refuse but does not break off: a question for a
state, a block, a position or a slot is answered by one region at most, every entry of either region is
found, and a question is without an answer only if neither region holds what it asks for. -/
theorem exclusive_of_run (hsteady : Archive.Steady τ) {anchor : Snapshot} {specs : Spec → Prop}
    (hanchor : anchor.state.Reached specs) {spec : Spec} {archive : τ}
    (hstart : start anchor spec archive = .ok h) (calls : List Call)
    (hK : CollisionFree (anchor.state.hashed ++ hashed calls h)) : (play calls h).Exclusive :=
  (sound_of_start hsteady hanchor hstart calls hK.right).exclusive hK
    (distinct_of_start hanchor hstart calls hK.right)
    (traced_of_start hsteady hanchor hstart calls hK)

theorem exclusive_of_run_tiny :
    CollisionFree (Frontier.tinyAnchor.state.hashed ++ hashed tinyHeaded tinyHistory) ∧
      (play tinyHeaded tinyHistory).Exclusive := by
  have hK : CollisionFree (Frontier.tinyAnchor.state.hashed ++ hashed tinyHeaded tinyHistory) :=
    collisionFree_headed.mono fun x hx =>
      (List.mem_append.1 hx).elim (mem_hashed_of_start start_tiny _ _ x) id
  exact ⟨hK, exclusive_of_run Ledger.tables_steady Frontier.reached_tiny start_tiny tinyHeaded hK⟩

end History

end BeaconHistory
