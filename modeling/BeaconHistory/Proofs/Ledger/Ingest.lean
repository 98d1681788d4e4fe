import BeaconHistory.Ledger.Basic
import BeaconHistory.Proofs.Chronicle
import BeaconHistory.Proofs.Lookup
import BeaconHistory.Proofs.Outcome

/-!
# Ledger.Ingest — how the records grow

The records of a ledger are a chronicle, and its index of blocks has the first slot of each.  Main
statement: of entries that continue the chronicle a ledger takes as many as its archive files, and
rejects the next one for no other reason than that of the archive.
-/

namespace BeaconHistory

/-- The archive may refuse to file a state, and does not break off. -/
def Archive.Steady (τ : Type) [Archive τ] : Prop :=
  ∀ (position : Position) (root : Root) (state : State) (archive : τ),
    (Archive.put position root state).Steady archive

namespace Ledger

variable {τ : Type} {l : Ledger τ} {accepted : Block → Prop} {first last : Summary}

/-- The invariant of ledgers that start with `first`. -/
structure Keeps (accepted : Block → Prop) (first : Summary) (l : Ledger τ) : Prop where
  opened : l.poisoned = false
  start : l.start = first.slot
  chronicle : ∃ last, Chronicle accepted first l.records.toList last
  blocks : ∀ root : Root, l.blocks[root]? =
    (l.records.toList.find? fun s => s.blockRoot = root).map Summary.slot

/-! ## 1. What an open ledger answers -/

theorem opened_of_open (h : l.poisoned = false) : l.opened = .ok l := by
  unfold opened
  rw [h]
  rfl

theorem stop_of_open (h : l.poisoned = false) : l.stop = .ok l.next := by
  unfold stop
  rw [opened_of_open h]
  rfl

theorem containsBlock_of_open (h : l.poisoned = false) (root : Root) :
    l.containsBlock root = .ok (l.blocks.contains root) := by
  unfold containsBlock
  rw [opened_of_open h]
  rfl

theorem head_of_open (h : l.poisoned = false) :
    l.head = l.serve (.unknownSlot l.start) l.records.back? := by
  unfold head
  rw [opened_of_open h]
  rfl

theorem bySlot_of_open (h : l.poisoned = false) (slot : UInt64) :
    l.bySlot slot = l.serve (.unknownSlot slot) (l.record? slot) := by
  unfold bySlot
  rw [opened_of_open h]
  rfl

theorem span_of_open [Archive τ] (h : l.poisoned = false) : Chain.span l = .ok (.filed l.start l.next) := by
  show l.opened.bind (fun l => .ok (Span.filed l.start l.next)) = _
  rw [opened_of_open h]
  rfl

/-! ## 2. What is next -/

theorem back?_eq (h : Chronicle accepted first l.records.toList last) :
    l.records.back? = some last := by
  rw [← Array.getLast?_toList]
  exact h.getLast?

theorem next_eq (hstart : l.start = first.slot)
    (h : Chronicle accepted first l.records.toList last) : l.next = last.slot + 1 := by
  have hslot := h.slot_last
  rw [Array.length_toList] at hslot
  apply UInt64.toNat_inj.1
  unfold next
  rw [hstart, UInt64.toNat_add, UInt64.toNat_add, UInt64.toNat_ofNat', UInt64.toNat_one, hslot]
  omega

theorem checkLink_of_follows (hstart : l.start = first.slot)
    (h : Chronicle accepted first l.records.toList last) {s : Summary} (hs : s.Follows last) :
    l.checkLink s = .ok () := by
  have hnext : s.slot = l.next := by
    rw [next_eq hstart h]
    apply UInt64.toNat_inj.1
    have := hs.slot
    have := s.slot.toNat_lt
    rw [UInt64.toNat_add, UInt64.toNat_one]
    omega
  unfold checkLink
  rw [if_neg (fun hne => hne hnext), back?_eq h]
  exact if_pos hs.root

/-- Records that follow each other slot by slot are found at their slots. -/
theorem record?_iff_of_slots
    (h : ∀ (i : Nat) (s : Summary), l.records.toList[i]? = some s → s.slot.toNat = l.start.toNat + i)
    {slot : UInt64} {s : Summary} :
    l.record? slot = some s ↔ s ∈ l.records.toList ∧ s.slot = slot := by
  unfold record?
  by_cases hlt : slot < l.start
  · rw [if_pos hlt]
    refine ⟨fun heq => (by cases heq), ?_⟩
    rintro ⟨hs, rfl⟩
    obtain ⟨i, hi⟩ := List.mem_iff_getElem?.1 hs
    have hslot := h i s hi
    rw [UInt64.lt_iff_toNat_lt] at hlt
    omega
  · have hle := UInt64.not_lt.1 hlt
    have hoffset : (slot - l.start).toNat = slot.toNat - l.start.toNat := UInt64.toNat_sub_of_le _ _ hle
    rw [UInt64.le_iff_toNat_le] at hle
    rw [if_neg hlt, hoffset, ← Array.getElem?_toList]
    constructor
    · intro hs
      have hslot := h _ s hs
      refine ⟨List.mem_of_getElem? hs, UInt64.toNat_inj.1 ?_⟩
      omega
    · rintro ⟨hs, rfl⟩
      obtain ⟨i, hi⟩ := List.mem_iff_getElem?.1 hs
      have hslot := h i s hi
      have hindex : s.slot.toNat - l.start.toNat = i := by omega
      rw [hindex]
      exact hi

/-- Such records leave out no slot from the start on, up to the next one. -/
theorem exists_record?_iff_of_slots
    (h : ∀ (i : Nat) (s : Summary), l.records.toList[i]? = some s → s.slot.toNat = l.start.toNat + i)
    {slot : UInt64} :
    (∃ s, l.record? slot = some s) ↔
      l.start.toNat ≤ slot.toNat ∧ slot.toNat < l.start.toNat + l.records.size := by
  rw [← Array.length_toList]
  constructor
  · rintro ⟨s, hs⟩
    obtain ⟨hmem, rfl⟩ := (record?_iff_of_slots h).1 hs
    obtain ⟨i, hi⟩ := List.mem_iff_getElem?.1 hmem
    have hslot := h i s hi
    have hlt := (List.getElem?_eq_some_iff.1 hi).1
    omega
  · rintro ⟨hle, hlt⟩
    have hindex : slot.toNat - l.start.toNat < l.records.toList.length := by omega
    have hat := List.getElem?_eq_getElem hindex
    have hslot := h _ _ hat
    exact ⟨_, (record?_iff_of_slots h).2 ⟨List.mem_of_getElem? hat, UInt64.toNat_inj.1 (by omega)⟩⟩

theorem record?_eq_some_iff (hstart : l.start = first.slot)
    (h : Chronicle accepted first l.records.toList last) {slot : UInt64} {s : Summary} :
    l.record? slot = some s ↔ s ∈ l.records.toList ∧ s.slot = slot := by
  refine record?_iff_of_slots fun i s hi => ?_
  rw [hstart]
  exact h.slot_getElem? hi

/-! ## 3. One entry -/

theorem Keeps.checkLink (h : l.Keeps accepted first) {s : Summary}
    (hs : ∃ last, Chronicle accepted first (l.records.toList ++ [s]) last) : l.checkLink s = .ok () := by
  obtain ⟨last, hlast⟩ := h.chronicle
  obtain ⟨_, hs⟩ := hs
  obtain ⟨-, -, before, hbefore, hfollows⟩ := hs.of_concat hlast.ne_nil
  exact checkLink_of_follows h.start hbefore hfollows

@[simp] theorem toList_records_append (l : Ledger τ) (s : Summary) :
    (l.append s).records.toList = l.records.toList ++ [s] := Array.toList_push

theorem record_of_append {i : Nat} {s q : Summary} (h : (l.append s).records[i]? = some q) :
    l.records[i]? = some q ∨ i = l.records.size ∧ q = s := by
  have h : (l.records.push s)[i]? = some q := h
  rw [Array.getElem?_push] at h
  split at h
  · next hi => exact Or.inr ⟨hi, (Option.some.inj h).symm⟩
  · exact Or.inl h

/-- An index that has the first slot of each block keeps it when a record is added. -/
theorem blocks_append (h : ∀ root : Root, l.blocks[root]? =
      (l.records.toList.find? fun s => s.blockRoot = root).map Summary.slot) (s : Summary) (root : Root) :
    (l.append s).blocks[root]? =
      ((l.append s).records.toList.find? fun s => s.blockRoot = root).map Summary.slot := by
  rw [toList_records_append]
  exact Lookup.insertIfNew_of_first h s root

theorem Keeps.appended (h : l.Keeps accepted first) {s : Summary}
    (hs : ∃ last, Chronicle accepted first (l.records.toList ++ [s]) last) (archive : τ) :
    (append { l with archive := archive } s).Keeps accepted first := by
  refine ⟨h.opened, h.start, ?_, blocks_append h.blocks s⟩
  rw [toList_records_append]
  exact hs

variable [Archive τ]

theorem ingest_eq (h : l.poisoned = false) {entry : Snapshot}
    (hlink : l.checkLink entry.summary = .ok ()) :
    ingest entry l =
      match Archive.put entry.position entry.summary.stateRoot entry.state l.archive with
      | .ok _ archive => .ok () (append { l with archive := archive } entry.summary)
      | .error (.refused e) archive => .error (.refused (.archive e)) { l with archive := archive }
      | .error (.broke fault) archive =>
        .error (.broke fault) { l with archive := archive, poisoned := true } := by
  have hopen : ¬ l.poisoned = true := by rw [h]; decide
  exact (if_neg hopen).trans (hlink ▸ rfl)

theorem ingest_of_checkLink_error (h : l.poisoned = false) {entry : Snapshot} {e : Error}
    (hlink : l.checkLink entry.summary = .error e) : ingest entry l = .error (.refused e) l := by
  have hopen : ¬ l.poisoned = true := by rw [h]; decide
  exact (if_neg hopen).trans (hlink ▸ rfl)

/-! ## 4. Handing over -/

open Frontier (handOver)

/-- Entries that continue the records are taken until the archive refuses one. -/
theorem Keeps.handed (hsteady : Archive.Steady τ) (h : l.Keeps accepted first) {path : List Snapshot}
    (hpath : ∃ last, Chronicle accepted first (l.records.toList ++ path.map Snapshot.summary) last) :
    (handOver path l).sink.Keeps accepted first ∧
      (handOver path l).sink.records.toList =
        l.records.toList ++ (handOver path l).accepted.map Snapshot.summary ∧
      ((handOver path l).stopped = none ∨
        ∃ entry e, (handOver path l).stopped = some (entry, .refused (.ledger (.archive e)))) := by
  induction path generalizing l with
  | nil => exact ⟨h, (List.append_nil _).symm, Or.inl rfl⟩
  | cons entry path ih =>
    obtain ⟨last, hlast⟩ := hpath
    rw [List.map_cons, List.append_cons] at hlast
    have hentry : ∃ last, Chronicle accepted first (l.records.toList ++ [entry.summary]) last :=
      hlast.of_prefix (List.prefix_append _ _) (by simp)
    unfold handOver
    simp only [Frontier.Sink.offer]
    rw [ingest_eq h.opened (h.checkLink hentry)]
    -- The link is right, so the archive alone decides.
    have hput := hsteady entry.position entry.summary.stateRoot entry.state l.archive
    cases hresult : Archive.put entry.position entry.summary.stateRoot entry.state l.archive with
    | ok _ archive =>
      have hrecords : (append { l with archive := archive } entry.summary).records.toList =
          l.records.toList ++ [entry.summary] := toList_records_append _ _
      obtain ⟨hkeeps, heq, hstopped⟩ := ih (h.appended hentry archive) ⟨last, hrecords ▸ hlast⟩
      refine ⟨hkeeps, ?_, hstopped⟩
      rw [hrecords] at heq
      exact heq.trans (List.append_cons _ _ _).symm
    | error failure archive =>
      cases failure with
      | refused e =>
        exact ⟨⟨h.opened, h.start, h.chronicle, h.blocks⟩, (List.append_nil _).symm,
          Or.inr ⟨entry, e, rfl⟩⟩
      | broke fault => exact absurd hresult (hput fault archive)

end Ledger

end BeaconHistory
