import BeaconHistory.Proofs.History.Line
import BeaconHistory.Proofs.History.Use
import BeaconHistory.Proofs.Ledger.Placed

/-!
# History.Stable — a range that is open while its history moves on

One half of a range holds its entries, and the other reads the live ledger, which grows while the tree
next to it is pruned.  Main statement: whatever is done with the history after a range was opened, every
slot is read as it was then, so is the whole range, and the slots outside are refused with its two ends.
-/

namespace BeaconHistory

/-! ## 1. What a range reads of the files -/

namespace Span

/-- The slots that a range reads from the files. -/
def Asks : Span → UInt64 → Prop
  | entries _ _, _ => False
  | filed start stop, slot => start ≤ slot ∧ slot < stop
  | joined first second, slot => first.Asks slot ∨ second.Asks slot

theorem entry_congr {files files' : Files} {slot : UInt64} {span : Span}
    (hfiles : span.Asks slot → files'.entryAt slot = files.entryAt slot) :
    span.entry files' slot = span.entry files slot := by
  induction span with
  | entries start snapshots => rfl
  | filed start stop =>
    unfold entry
    by_cases hin : (filed start stop).contains slot = true
    · rw [if_pos hin, if_pos hin, hfiles (contains_iff.1 hin)]
    · rw [if_neg hin, if_neg hin]
  | joined first second ihFirst ihSecond =>
    unfold entry
    rw [ihFirst fun h => hfiles (.inl h), ihSecond fun h => hfiles (.inr h)]

theorem read_congr {files files' : Files} {span : Span}
    (hentry : ∀ slot, span.entry files' slot = span.entry files slot) :
    span.read files' = span.read files := List.map_congr_left fun slot _ => hentry slot

theorem entry_of_outside {files : Files} {slot : UInt64} {span : Span}
    (hout : ¬ (span.start ≤ slot ∧ slot < span.stop)) :
    span.entry files slot = .error (.outOfRange slot span.start span.stop) := by
  have hcontains : ¬ span.contains slot = true := mt contains_iff.1 hout
  cases span <;> exact if_neg hcontains

end Span

/-! ## 2. Ledgers that grow -/

namespace Ledger

variable {τ : Type} {l l' : Ledger τ} {slot : UInt64}

/-- The records of `l'` begin with those of `l`, and stand and are read as they did. -/
structure Grows (l l' : Ledger τ) : Prop where
  constants : l'.spec = l.spec
  start : l'.start = l.start
  records : l.records.toList <+: l'.records.toList

theorem Grows.refl (l : Ledger τ) : l.Grows l := ⟨rfl, rfl, List.prefix_refl _⟩

theorem Grows.trans {l'' : Ledger τ} (h : l.Grows l') (h' : l'.Grows l'') : l.Grows l'' :=
  ⟨h'.constants.trans h.constants, h'.start.trans h.start, h.records.trans h'.records⟩

-- Also where the slots do not fit: the end is then computed modulo `2 ^ 64`, and is never too late.
theorem offset_lt_size (hfrom : l.start ≤ slot) (hto : slot < l.next) :
    (slot - l.start).toNat < l.records.size := by
  unfold next at hto
  rw [UInt64.lt_iff_toNat_lt, UInt64.toNat_add, UInt64.toNat_ofNat'] at hto
  rw [UInt64.toNat_sub_of_le _ _ hfrom]
  rw [UInt64.le_iff_toNat_le] at hfrom
  have hword := slot.toNat_lt
  have hstart := l.start.toNat_lt
  omega

theorem Grows.record?_eq (h : l.Grows l') (hfrom : l.start ≤ slot) (hto : slot < l.next) :
    l'.record? slot = l.record? slot := by
  obtain ⟨later, hlater⟩ := h.records
  have hlt := offset_lt_size hfrom hto
  unfold record?
  rw [h.start, if_neg (UInt64.not_lt.2 hfrom), if_neg (UInt64.not_lt.2 hfrom), ← Array.getElem?_toList,
    ← Array.getElem?_toList, ← hlater, List.getElem?_append_left (by rwa [Array.length_toList])]

theorem Grows.bySlot_eq (h : l.Grows l') (hopen : l.poisoned = false) (hopen' : l'.poisoned = false)
    (hfrom : l.start ≤ slot) (hto : slot < l.next) : l'.bySlot slot = l.bySlot slot := by
  rw [bySlot_of_open hopen, bySlot_of_open hopen', h.record?_eq hfrom hto]
  unfold serve
  rw [h.constants]

theorem grows_told [Archive τ] (entry : Snapshot) (l : Ledger τ) : l.Grows (l.told entry) := by
  refine ⟨?_, ?_, records_prefix_ingest entry l⟩ <;> rw [told, Operation.after_eq]
  all_goals
    unfold ingest
    split
    · rfl
    split
    · rfl
    · cases Archive.put entry.position entry.summary.stateRoot entry.state l.archive with
      | ok _ archive => rfl
      | error e archive => cases e <;> rfl

end Ledger

/-! ## 3. Ranges of a history -/

namespace History

variable {τ : Type} [Archive τ] {h : History τ}

/-- A use adds to the ledger at most. -/
theorem Use.grows (u : Use) (h : History τ) : h.ledger.Grows (u.after h).ledger := by
  unfold ledger
  rw [u.frontier_after]
  cases u with
  | call c =>
    have hoffer : ∀ entry l, h.frontier.sink.Grows l →
        h.frontier.sink.Grows (Operation.left (Frontier.Sink.offer entry l)) := by
      intro entry l hl
      rw [Ledger.left_offer]
      exact hl.trans (Ledger.grows_told entry l)
    exact c.toHot.keeps_sink hoffer (fun _ _ hl => hl) (.refl _)
  | ingest entry => exact Ledger.grows_told entry h.frontier.sink

theorem grows_perform (uses : List Use) (h : History τ) :
    h.ledger.Grows (perform uses h).ledger := by
  induction uses generalizing h with
  | nil => exact .refl _
  | cons u uses ih => exact (u.grows h).trans (ih (u.after h))

omit [Archive τ] in
theorem span_of_closed_frontier {f : Frontier (Ledger τ)} (h : f.poisoned = true) :
    Chain.span f = .error (.poisoned .hot) := by
  show f.served.bind _ = _
  rw [Frontier.served, if_pos h]
  rfl

theorem span_of_closed_ledger {l : Ledger τ} (h : l.poisoned = true) :
    Chain.span l = .error (.poisoned .cold) := by
  show l.opened.bind _ = _
  rw [Ledger.opened, if_pos h]
  rfl

-- A range is opened by two open regions.
theorem range_of_span {span : Span} (hspan : Chain.span h = .ok span) :
    h.ledger.poisoned = false ∧ span = h.range := by
  have hparts : (do
    let hot ← spanOf .hot (Chain.span h.frontier)
    let cold ← spanOf .cold (Chain.span h.ledger)
    return Span.joined cold hot) = Except.ok span := hspan
  cases hhot : h.frontier.poisoned with
  | true =>
    rw [span_of_closed_frontier hhot] at hparts
    cases hparts
  | false =>
    cases hcold : h.ledger.poisoned with
    | true =>
      rw [Frontier.span_of_open hhot, span_of_closed_ledger hcold] at hparts
      cases hparts
    | false => exact ⟨rfl, Except.ok.inj (hspan.symm.trans (span_of_open hhot hcold))⟩

/-- A range is a snapshot of its history: whatever calls are made and whatever the ledger ingests after it
was opened, failing or not, as long as the ledger is not closed by a fault every slot is read as it was
when the range was opened, and so are all of them in order.  Its ends stay where they were. -/
theorem stable_of_span {span : Span} (hspan : Chain.span h = .ok span) (uses : List Use)
    (hopen : (perform uses h).ledger.poisoned = false) :
    (∀ slot, span.entry (Chain.files (perform uses h)) slot = span.entry (Chain.files h) slot) ∧
      span.read (Chain.files (perform uses h)) = span.read (Chain.files h) ∧
      ∀ slot, ¬ (span.start ≤ slot ∧ slot < span.stop) →
        span.entry (Chain.files (perform uses h)) slot =
          .error (.outOfRange slot span.start span.stop) := by
  obtain ⟨hledger, rfl⟩ := range_of_span hspan
  have hentry : ∀ slot, h.range.entry (Chain.files (perform uses h)) slot =
      h.range.entry (Chain.files h) slot := by
    refine fun slot => Span.entry_congr fun hasks => ?_
    rcases hasks with ⟨hfrom, hto⟩ | hnone
    · exact (grows_perform uses h).bySlot_eq hledger hopen hfrom hto
    · exact hnone.elim
  exact ⟨hentry, Span.read_congr hentry, fun slot => Span.entry_of_outside⟩

-- A range that was open while the block it holds was finalized.
theorem stable_of_span_tiny :
    ∃ span, Chain.span tinyGrown = .ok span ∧
      (perform [.call tinyCheckpoint] tinyGrown).ledger.poisoned = false ∧
      span.read (Chain.files (perform [.call tinyCheckpoint] tinyGrown)) =
        span.read (Chain.files tinyGrown) := by
  have hspan := sound_grown_tiny.span_eq
  have hplay : perform [.call tinyCheckpoint] tinyGrown = play tinyRun tinyHistory :=
    (play_append [.hot (.addBlock tinyBlock)] [tinyCheckpoint] tinyHistory).symm
  have hsound :=
    sound_of_start Ledger.tables_steady Frontier.reached_tiny start_tiny tinyRun collisionFree_tiny
  have hopen : (perform [.call tinyCheckpoint] tinyGrown).ledger.poisoned = false := by
    rw [hplay]
    exact hsound.ledger.opened
  exact ⟨_, hspan, hopen, (stable_of_span hspan [.call tinyCheckpoint] hopen).2.1⟩

end History

end BeaconHistory
