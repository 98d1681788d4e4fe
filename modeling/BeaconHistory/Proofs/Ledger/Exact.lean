import BeaconHistory.Proofs.Frontier.Run
import BeaconHistory.Proofs.Ledger.Lookups
import BeaconHistory.Proofs.Ledger.Tables
import BeaconHistory.Proofs.Questions

/-!
# Ledger.Exact — a ledger is offered anything

Whoever offers entries to a ledger may offer them twice, out of order or out of line, and the archive may
refuse the right ones.  Main statement: an entry is taken as a whole or not at all, and after any offers the
indexes tell what a search through the records would.
-/

namespace BeaconHistory

namespace Ledger

variable {τ : Type} {l : Ledger τ} {s : Summary}

/-- The summary is at the next slot and builds on the latest record, if there is one. -/
structure Extends (l : Ledger τ) (s : Summary) : Prop where
  slot : s.slot.toNat = l.start.toNat + l.records.size
  linked : ∀ latest, l.records.back? = some latest → s.linksTo = latest.blockRoot

theorem toNat_next (hroom : l.start.toNat + l.records.size < 2 ^ 64) :
    l.next.toNat = l.start.toNat + l.records.size := by
  unfold next
  rw [UInt64.toNat_add, UInt64.toNat_ofNat']
  omega

theorem checkLink_eq_ok_iff (hroom : l.start.toNat + l.records.size < 2 ^ 64) :
    l.checkLink s = .ok () ↔ l.Extends s := by
  have hnext := toNat_next hroom
  unfold checkLink
  by_cases hslot : s.slot = l.next
  · rw [if_neg (Decidable.not_not.2 hslot)]
    have hslotNat : s.slot.toNat = l.start.toNat + l.records.size := by rw [hslot, hnext]
    cases hback : l.records.back? with
    | none => exact ⟨fun _ => ⟨hslotNat, fun _ h => by rw [hback] at h; cases h⟩, fun _ => rfl⟩
    | some latest =>
      dsimp only
      by_cases hlink : s.linksTo = latest.blockRoot
      · rw [if_pos hlink]
        refine ⟨fun _ => ⟨hslotNat, fun q hq => ?_⟩, fun _ => rfl⟩
        rw [hback] at hq
        cases hq
        exact hlink
      · rw [if_neg hlink]
        exact ⟨fun h => (by cases h), fun h => absurd (h.linked latest hback) hlink⟩
  · rw [if_pos hslot]
    refine ⟨fun h => (by cases h), fun h => absurd (UInt64.toNat_inj.1 ?_) hslot⟩
    rw [h.slot, hnext]

/-! ## 1. The records and their indexes -/

/-- The records follow each other slot by slot; each block is indexed by its first record, each state by
its last. -/
structure Exact (l : Ledger τ) : Prop where
  opened : l.poisoned = false
  slots : ∀ (i : Nat) (s : Summary), l.records[i]? = some s → s.slot.toNat = l.start.toNat + i
  links : ∀ (i : Nat) (q s : Summary), l.records[i]? = some q → l.records[i + 1]? = some s →
    s.linksTo = q.blockRoot
  blocks : ∀ root : Root, l.blocks[root]? =
    (l.records.toList.find? fun s => s.blockRoot = root).map Summary.slot
  states : ∀ root : Root, l.states[root]? =
    (l.records.toList.reverse.find? fun s => s.stateRoot = root).map Summary.slot

theorem exact_empty (start : UInt64) (spec : Spec) (archive : τ) : (empty start spec archive).Exact :=
  ⟨rfl, fun _ _ h => (by simp [empty] at h), fun _ _ _ h => (by simp [empty] at h),
    fun _ => Std.ExtTreeMap.getElem?_empty, fun _ => Std.ExtTreeMap.getElem?_empty⟩

namespace Exact

theorem withArchive (h : l.Exact) (archive : τ) : Exact { l with archive := archive } :=
  ⟨h.opened, h.slots, h.links, h.blocks, h.states⟩

theorem append (h : l.Exact) (hs : l.Extends s) : (l.append s).Exact := by
  refine ⟨h.opened, fun i q hq => ?_, fun i q q' hq hq' => ?_, blocks_append h.blocks s, fun root => ?_⟩
  · rcases record_of_append hq with hq | ⟨rfl, rfl⟩
    · exact h.slots i q hq
    · exact hs.slot
  · rcases record_of_append hq with hold | ⟨rfl, -⟩
    · rcases record_of_append hq' with hold' | ⟨hlast, rfl⟩
      · exact h.links i q q' hold hold'
      · -- The record before the new one is the latest so far.
        refine hs.linked q ?_
        rw [Array.back?_eq_getElem?, ← hlast, Nat.add_sub_cancel]
        exact hold
    · have hlt := (Array.getElem?_eq_some_iff.1 hq').1
      rw [show (l.append s).records.size = l.records.size + 1 from Array.size_push _] at hlt
      exact absurd hlt (Nat.lt_irrefl _)
  · rw [toList_records_append, List.reverse_append, List.reverse_singleton, List.singleton_append]
    show (l.states.insert s.stateRoot s.slot)[root]? = _
    rw [Lookup.getElem?_insert, h.states]
    by_cases hroot : s.stateRoot = root <;> simp [hroot]

theorem slots_toList (h : l.Exact) (i : Nat) (s : Summary) (hs : l.records.toList[i]? = some s) :
    s.slot.toNat = l.start.toNat + i := by
  rw [Array.getElem?_toList] at hs
  exact h.slots i s hs

theorem record?_iff (h : l.Exact) {slot : UInt64} :
    l.record? slot = some s ↔ s ∈ l.records.toList ∧ s.slot = slot := record?_iff_of_slots h.slots_toList

/-- There is a record for each slot from the start on, up to the next one. -/
theorem exists_record?_iff (h : l.Exact) {slot : UInt64} :
    (∃ s, l.record? slot = some s) ↔
      l.start.toNat ≤ slot.toNat ∧ slot.toNat < l.start.toNat + l.records.size :=
  exists_record?_iff_of_slots h.slots_toList

theorem record_unique (h : l.Exact) {s s' : Summary} (hs : s ∈ l.records.toList)
    (hs' : s' ∈ l.records.toList) (hslot : s.slot = s'.slot) : s = s' := by
  have hfound := h.record?_iff.2 ⟨hs, hslot⟩
  rw [h.record?_iff.2 ⟨hs', rfl⟩] at hfound
  exact (Option.some.inj hfound).symm

-- A search for a property that fixes the slot finds what has it.
theorem find?_eq_some_iff (h : l.Exact) {p : Summary → Bool}
    (hp : ∀ s s' : Summary, p s = true → p s' = true → s.slot = s'.slot) :
    l.records.toList.find? p = some s ↔ s ∈ l.records.toList ∧ p s = true := by
  refine ⟨fun hs => ⟨List.mem_of_find?_eq_some hs, List.find?_some hs⟩, fun ⟨hmem, hs⟩ => ?_⟩
  cases hfound : l.records.toList.find? p with
  | none => exact absurd hs (List.find?_eq_none.1 hfound s hmem)
  | some s' =>
    rw [h.record_unique (List.mem_of_find?_eq_some hfound) hmem (hp s' s (List.find?_some hfound) hs)]

theorem record?_eq_find? (h : l.Exact) (slot : UInt64) :
    l.record? slot = l.records.toList.find? fun s => s.slot = slot := by
  refine Option.ext fun s => ?_
  rw [h.record?_iff, h.find?_eq_some_iff fun s s' hs hs' => ?_, decide_eq_true_eq]
  rw [of_decide_eq_true hs, of_decide_eq_true hs']

theorem filter_record?_eq_find? (h : l.Exact) (p : Position) :
    ((l.record? p.slot).filter fun s => s.blockRoot = p.root) =
      l.records.toList.find? fun s => s.position = p := by
  refine Option.ext fun s => ?_
  rw [Option.filter_eq_some_iff, h.record?_iff, h.find?_eq_some_iff fun s s' hs hs' => ?_,
    decide_eq_true_eq, decide_eq_true_eq, and_assoc]
  · refine and_congr_right fun _ => ⟨fun ⟨hslot, hroot⟩ => ?_, fun hp => ?_⟩
    · rw [Summary.position, hslot, hroot]
    · rw [← hp]
      exact ⟨rfl, rfl⟩
  · exact congrArg Position.slot ((of_decide_eq_true hs).trans (of_decide_eq_true hs').symm)

-- The slot that an index has for a record leads back to the record.
theorem bind_record?_eq (h : l.Exact) {found : Option Summary} (hfound : ∀ s ∈ found, s ∈ l.records.toList) :
    (found.map Summary.slot).bind l.record? = found := by
  cases found with
  | none => rfl
  | some s => exact h.record?_iff.2 ⟨hfound s rfl, rfl⟩

end Exact

/-! ## 2. What the records tell -/

/-- The records from `start` on are linked slot by slot, and each question about them is answered by a search
through them: for a slot, a position and a block the first record that fits, for a state the last. -/
structure Tells [Archive τ] (start : UInt64) (l : Ledger τ) : Prop where
  first : l.first = .ok start
  stop : ∃ stop, l.stop = .ok stop ∧ stop.toNat = start.toNat + l.size
  slots : ∀ (i : Nat) (s : Summary), l.records[i]? = some s → s.slot.toNat = start.toNat + i
  links : ∀ (i : Nat) (q s : Summary), l.records[i]? = some q → l.records[i + 1]? = some s →
    s.linksTo = q.blockRoot
  size : l.size = l.records.size
  head : l.head = l.serve (.unknownSlot start) l.records.back?
  held : ∀ slot : UInt64, (∃ entry, Chain.bySlot l slot = .ok entry) ↔
    start.toNat ≤ slot.toNat ∧ slot.toNat < start.toNat + l.size
  bySlot : ∀ slot : UInt64, Chain.bySlot l slot =
    l.serve (.unknownSlot slot) (l.records.toList.find? fun s => s.slot = slot)
  byPosition : ∀ p : Position, Chain.byPosition l p =
    l.serve (.unknownPosition p) (l.records.toList.find? fun s => s.position = p)
  byBlockRoot : ∀ root : Root, Chain.byBlockRoot l root =
    l.serve (.unknownBlockRoot root) (l.records.toList.find? fun s => s.blockRoot = root)
  byStateRoot : ∀ root : Root, Chain.byStateRoot l root =
    l.serve (.unknownStateRoot root) (l.records.toList.reverse.find? fun s => s.stateRoot = root)

theorem size_of_open (h : l.poisoned = false) : l.size = l.records.size := by
  unfold size
  rw [h]
  rfl

theorem first_of_open (h : l.poisoned = false) : l.first = .ok l.start := by
  unfold first
  rw [opened_of_open h]
  rfl

theorem Exact.tells [Archive τ] (h : l.Exact) (hroom : l.start.toNat + l.records.size < 2 ^ 64) :
    l.Tells l.start where
  first := first_of_open h.opened
  stop := ⟨l.next, stop_of_open h.opened, by rw [size_of_open h.opened, toNat_next hroom]⟩
  slots := h.slots
  links := h.links
  size := size_of_open h.opened
  head := head_of_open h.opened
  held slot := by
    rw [size_of_open h.opened, ← h.exists_record?_iff]
    show (∃ entry, l.bySlot slot = .ok entry) ↔ _
    simp only [bySlot_of_open h.opened, serve_eq_ok_iff]
    exact ⟨fun ⟨_, s, hs, _⟩ => ⟨s, hs⟩, fun ⟨s, hs⟩ => ⟨_, s, hs, rfl⟩⟩
  bySlot slot := by
    rw [← h.record?_eq_find?]
    exact ask_of_open h.opened (.slot slot)
  byPosition p := by
    rw [← h.filter_record?_eq_find?]
    exact ask_of_open h.opened (.position p)
  byBlockRoot root := by
    rw [← h.bind_record?_eq fun _ hs => List.mem_of_find?_eq_some hs, ← h.blocks]
    exact ask_of_open h.opened (.blockRoot root)
  byStateRoot root := by
    rw [← h.bind_record?_eq fun _ hs => List.mem_reverse.1 (List.mem_of_find?_eq_some hs), ← h.states]
    exact ask_of_open h.opened (.stateRoot root)

/-! ## 3. One offer -/

section

variable [Archive τ]

/-- No question about the two ledgers tells them apart. -/
structure SameAnswers (l l' : Ledger τ) : Prop where
  first : l'.first = l.first
  stop : l'.stop = l.stop
  size : l'.size = l.size
  isEmpty : l'.isEmpty = l.isEmpty
  head : l'.head = l.head
  containsBlock : ∀ root : Root, l'.containsBlock root = l.containsBlock root
  ask : ∀ q : Question, q.ask l' = q.ask l
  ancestry : ∀ a b : Root, Chain.ancestry l' a b = Chain.ancestry l a b
  span : Chain.span l' = Chain.span l

-- What an open ledger answers does not depend on its archive.
theorem sameAnswers_withArchive (hopen : l.poisoned = false) (archive : τ) :
    l.SameAnswers { l with archive := archive } := by
  have hread {α : Type} (query : Ledger τ → Except Query.Error α)
      (hsame : query { l with archive := archive } = query l) :
      (opened { l with archive := archive } >>= query) = (l.opened >>= query) := by
    rw [opened_of_open hopen, opened_of_open (l := { l with archive := archive }) hopen]
    exact hsame
  have hclosest (root : Root) (bound : UInt64) :
      closest { l with archive := archive } root bound = l.closest root bound := by
    refine hread _ ?_
    simp only [Keeps.lastOfRun_eq]
    rfl
  refine ⟨hread (fun l => .ok l.start) rfl, hread (fun l => .ok l.next) rfl, rfl, rfl,
    hread (fun opened => opened.serve (.unknownSlot l.start) l.records.back?) rfl,
    fun root => hread (fun l => .ok (l.blocks.contains root)) rfl, fun q => ?_, fun _ _ => rfl,
    hread (fun l => .ok (Span.filed l.start l.next)) rfl⟩
  refine (ask_of_open (l := { l with archive := archive }) hopen q).trans ?_
  rw [ask_of_open hopen]
  cases q with
  | closest root bound => exact hclosest root bound
  | _ => rfl

/-- What a ledger asks of its archive for an entry. -/
def filing (entry : Snapshot) : Operation Archive.Error τ Unit :=
  Archive.put entry.position entry.summary.stateRoot entry.state

/-- An offer is refused before the archive is asked, or the archive refuses it, or it is taken. -/
theorem ingest_cases (hsteady : Archive.Steady τ) (hopen : l.poisoned = false)
    (hroom : l.start.toNat + l.records.size < 2 ^ 64) (entry : Snapshot) :
    (¬ l.Extends entry.summary ∧ ∃ e, l.checkLink entry.summary = .error e ∧
      ingest entry l = .error (.refused e) l) ∨
    (l.Extends entry.summary ∧ ∃ e archive, filing entry l.archive = .error (.refused e) archive ∧
      ingest entry l = .error (.refused (.archive e)) { l with archive := archive }) ∨
    (l.Extends entry.summary ∧ ∃ archive, filing entry l.archive = .ok () archive ∧
      ingest entry l = .ok () (append { l with archive := archive } entry.summary)) := by
  have hchecked := checkLink_eq_ok_iff (s := entry.summary) hroom
  cases hlink : l.checkLink entry.summary with
  | error e =>
    refine Or.inl ⟨fun h => ?_, e, rfl, ?_⟩
    · rw [hchecked.2 h] at hlink
      cases hlink
    · exact ingest_of_checkLink_error hopen hlink
  | ok _ =>
    refine Or.inr ?_
    have hextends := hchecked.1 hlink
    have heq := ingest_eq hopen hlink
    cases hput : Archive.put entry.position entry.summary.stateRoot entry.state l.archive with
    | ok _ archive =>
      rw [hput] at heq
      exact Or.inr ⟨hextends, archive, hput, heq⟩
    | error failure archive =>
      rw [hput] at heq
      cases failure with
      | refused e => exact Or.inl ⟨hextends, e, archive, hput, heq⟩
      | broke fault => exact absurd hput (hsteady _ _ _ _ fault archive)

/-- An entry is taken if it extends the records and the archive files its state; otherwise no answer changes.
An entry that does not extend them is refused whatever the archive, which is left as it is. -/
structure AllOrNothing (l : Ledger τ) (entry : Snapshot) : Prop where
  taken : (ingest entry).outcome l = .ok () ↔
    l.Extends entry.summary ∧ (filing entry).outcome l.archive = .ok ()
  asked : l.Extends entry.summary → ((ingest entry).after l).archive = (filing entry).after l.archive
  unasked : ¬ l.Extends entry.summary → ∃ e, ∀ archive : τ,
    ingest entry { l with archive := archive } = .error (.refused e) { l with archive := archive }
  recorded : (ingest entry).outcome l = .ok () →
    ((ingest entry).after l).records = l.records.push entry.summary
  kept : (ingest entry).outcome l ≠ .ok () → l.SameAnswers ((ingest entry).after l)

theorem allOrNothing_of_open (hsteady : Archive.Steady τ) (hopen : l.poisoned = false)
    (hroom : l.start.toNat + l.records.size < 2 ^ 64) (entry : Snapshot) : l.AllOrNothing entry := by
  rcases ingest_cases hsteady hopen hroom entry with
    ⟨hnot, e, hlink, hresult⟩ | ⟨hextends, e, archive, hput, hresult⟩ | ⟨hextends, archive, hput, hresult⟩
  · have houtcome := Operation.outcome_of_error hresult
    have hafter := Operation.after_eq_of_error hresult
    refine ⟨?_, fun h => absurd h hnot, fun _ => ⟨e, fun archive => ?_⟩, fun h => ?_, fun _ => ?_⟩
    · rw [houtcome]
      exact ⟨fun h => (by cases h), fun h => absurd h.1 hnot⟩
    · exact ingest_of_checkLink_error (l := { l with archive := archive }) hopen hlink
    · rw [houtcome] at h
      cases h
    · rw [hafter]
      exact sameAnswers_withArchive hopen l.archive
  · have houtcome := Operation.outcome_of_error hresult
    have hafter := Operation.after_eq_of_error hresult
    refine ⟨?_, fun _ => ?_, fun h => absurd hextends h, fun h => ?_, fun _ => ?_⟩
    · rw [houtcome, Operation.outcome_of_error hput]
      exact ⟨fun h => (by cases h), fun h => (by cases h.2)⟩
    · rw [hafter, Operation.after_eq_of_error hput]
    · rw [houtcome] at h
      cases h
    · rw [hafter]
      exact sameAnswers_withArchive hopen archive
  · have houtcome := Operation.outcome_of_ok hresult
    have hafter := Operation.after_eq_of_ok hresult
    refine ⟨?_, fun _ => ?_, fun h => absurd hextends h, fun _ => ?_, fun h => absurd houtcome h⟩
    · rw [houtcome, Operation.outcome_of_ok hput]
      exact ⟨fun _ => ⟨hextends, rfl⟩, fun _ => rfl⟩
    · rw [hafter, Operation.after_eq_of_ok hput]
      rfl
    · rw [hafter]
      rfl

/-! ## 4. Any offers -/

/-- The ledger after a number of offers, whether they are taken or not. -/
def offered (entries : List Snapshot) (l : Ledger τ) : Ledger τ :=
  entries.foldl (fun l entry => (ingest entry).after l) l

@[simp] theorem offered_cons (entry : Snapshot) (entries : List Snapshot) (l : Ledger τ) :
    offered (entry :: entries) l = offered entries ((ingest entry).after l) := rfl

theorem grows_of_ingest (entry : Snapshot) (l : Ledger τ) :
    ((ingest entry).after l).start = l.start ∧ l.records.size ≤ ((ingest entry).after l).records.size ∧
      ((ingest entry).after l).records.size ≤ l.records.size + 1 := by
  rw [Operation.after_eq]
  unfold ingest
  split
  · exact ⟨rfl, Nat.le_refl _, Nat.le_succ _⟩
  split
  · exact ⟨rfl, Nat.le_refl _, Nat.le_succ _⟩
  cases Archive.put entry.position entry.summary.stateRoot entry.state l.archive with
  | ok _ archive =>
    have hsize : (append { l with archive := archive } entry.summary).records.size =
      l.records.size + 1 := Array.size_push _
    exact ⟨rfl, Nat.le_of_lt (hsize ▸ Nat.lt_succ_self _), Nat.le_of_eq hsize⟩
  | error e archive => cases e <;> exact ⟨rfl, Nat.le_refl _, Nat.le_succ _⟩

theorem grows_of_offers (entries : List Snapshot) (l : Ledger τ) :
    (offered entries l).start = l.start ∧ l.records.size ≤ (offered entries l).records.size ∧
      (offered entries l).records.size ≤ l.records.size + entries.length := by
  induction entries generalizing l with
  | nil => exact ⟨rfl, Nat.le_refl _, Nat.le_refl _⟩
  | cons entry entries ih =>
    obtain ⟨hstart, hmore, hless⟩ := grows_of_ingest entry l
    obtain ⟨hstart', hmore', hless'⟩ := ih ((ingest entry).after l)
    rw [offered_cons, List.length_cons]
    exact ⟨hstart'.trans hstart, Nat.le_trans hmore hmore', by omega⟩

theorem Exact.ingested (h : l.Exact) (hsteady : Archive.Steady τ)
    (hroom : l.start.toNat + l.records.size < 2 ^ 64) (entry : Snapshot) :
    ((ingest entry).after l).Exact := by
  rcases ingest_cases hsteady h.opened hroom entry with
    ⟨-, e, -, hresult⟩ | ⟨-, e, archive, -, hresult⟩ | ⟨hextends, archive, -, hresult⟩
  · rw [Operation.after_eq_of_error hresult]
    exact h
  · rw [Operation.after_eq_of_error hresult]
    exact h.withArchive archive
  · rw [Operation.after_eq_of_ok hresult]
    exact (h.withArchive archive).append ⟨hextends.slot, hextends.linked⟩

theorem Exact.offered (h : l.Exact) (hsteady : Archive.Steady τ) {entries : List Snapshot}
    (hroom : l.start.toNat + (offered entries l).records.size < 2 ^ 64) : (offered entries l).Exact := by
  induction entries generalizing l with
  | nil => exact h
  | cons entry entries ih =>
    obtain ⟨hstart, hmore, -⟩ := grows_of_ingest entry l
    obtain ⟨-, hmore', -⟩ := grows_of_offers entries ((ingest entry).after l)
    rw [offered_cons] at hroom ⊢
    -- The records only grow, so there was room for every one of them.
    refine ih (h.ingested hsteady (by omega) entry) ?_
    rw [hstart]
    exact hroom

/-- Whatever a new ledger is offered and its archive refuses, each entry is taken as a whole or not at all, and
the answers are those of a search through the records. -/
theorem exact_of_offers (hsteady : Archive.Steady τ) {start : UInt64} {spec : Spec} {archive : τ}
    {entries : List Snapshot}
    (hroom : start.toNat + (offered entries (empty start spec archive)).records.size < 2 ^ 64) :
    (offered entries (empty start spec archive)).Tells start ∧
      ∀ entry : Snapshot, (offered entries (empty start spec archive)).AllOrNothing entry := by
  have hexact : (offered entries (empty start spec archive)).Exact :=
    (exact_empty start spec archive).offered hsteady hroom
  have hstart : (offered entries (empty start spec archive)).start = start :=
    (grows_of_offers entries (empty start spec archive)).1
  have hroom' : (offered entries (empty start spec archive)).start.toNat +
      (offered entries (empty start spec archive)).records.size < 2 ^ 64 := by
    rw [hstart]
    exact hroom
  have htells := hexact.tells hroom'
  rw [hstart] at htells
  exact ⟨htells, allOrNothing_of_open hsteady hexact.opened hroom'⟩

end

open Archive (Tables)
open Frontier (tinySpec tinyAnchor)

-- A ledger on tables takes its first entry, and refuses the same entry when it is offered again.
theorem exact_of_offers_twice :
    Archive.Steady Tables ∧
      (0 : UInt64).toNat + (offered [tinyAnchor, tinyAnchor] (empty 0 tinySpec Tables.empty)).records.size <
        2 ^ 64 ∧
      (offered [tinyAnchor, tinyAnchor] (empty 0 tinySpec Tables.empty)).records = #[tinyAnchor.summary] ∧
      (offered [tinyAnchor, tinyAnchor] (empty 0 tinySpec Tables.empty)).Tells 0 ∧
      (offered [tinyAnchor, tinyAnchor] (empty 0 tinySpec Tables.empty)).AllOrNothing tinyAnchor := by
  have hroom (entries : List Snapshot) (hfew : entries.length ≤ 2) :
      (0 : UInt64).toNat + (offered entries (empty 0 tinySpec Tables.empty)).records.size < 2 ^ 64 := by
    have hless := (grows_of_offers entries (empty 0 tinySpec Tables.empty)).2.2
    rw [show (empty 0 tinySpec Tables.empty).records.size = 0 from rfl] at hless
    rw [UInt64.toNat_zero]
    omega
  have hnew := (exact_of_offers tables_steady (hroom [] (by decide))).2 tinyAnchor
  have hextends : (empty 0 tinySpec Tables.empty).Extends tinyAnchor.summary :=
    ⟨rfl, fun _ h => (by cases h)⟩
  have hput := put_eq_ok (t := Tables.empty) (p := tinyAnchor.position) Std.ExtTreeMap.getElem?_empty
    tinyAnchor.summary.stateRoot tinyAnchor.state
  have hrecords : (offered [tinyAnchor] (empty 0 tinySpec Tables.empty)).records = #[tinyAnchor.summary] :=
    hnew.recorded (hnew.taken.2 ⟨hextends, Operation.outcome_of_ok hput⟩)
  -- The entry that was taken is no longer at the next slot.
  have hnot : ¬ (offered [tinyAnchor] (empty 0 tinySpec Tables.empty)).Extends tinyAnchor.summary := by
    intro h
    have hslot := h.slot
    rw [hrecords, (grows_of_offers [tinyAnchor] _).1] at hslot
    cases hslot
  obtain ⟨e, hagain⟩ :=
    ((exact_of_offers tables_steady (hroom [tinyAnchor] (by decide))).2 tinyAnchor).unasked hnot
  have hagain := Operation.after_eq_of_error
    (hagain (offered [tinyAnchor] (empty 0 tinySpec Tables.empty)).archive)
  have hroom := hroom [tinyAnchor, tinyAnchor] (by decide)
  obtain ⟨htells, hall⟩ := exact_of_offers tables_steady hroom
  refine ⟨tables_steady, hroom, ?_, htells, hall tinyAnchor⟩
  exact (congrArg Ledger.records hagain).trans hrecords

end Ledger

end BeaconHistory
