import BeaconHistory.Proofs.Frontier.Finalization
import BeaconHistory.Proofs.Ledger.Exact
import BeaconHistory.Proofs.Ledger.Filing

/-!
# Ledger.Placed — records at their slots

An entry is taken at the next slot only, whatever it is and wherever it comes from.  Main statements: a
hand-over adds exactly the entries that it accepts to the records; and as long as the slots fit, every slot
from the start up to that of a record is recorded, and the ledger ends after it.
-/

namespace BeaconHistory.Ledger

variable {τ : Type} {l : Ledger τ} {s : Summary}

/-! ## 1. What is taken -/

theorem slot_of_checkLink (h : l.checkLink s = .ok ()) : s.slot = l.next := by
  unfold checkLink at h
  split at h
  · cases h
  · next hslot => exact Decidable.not_not.1 hslot

section

variable [Archive τ]

theorem records_of_ingest (entry : Snapshot) (l : Ledger τ) :
    match ingest entry l with
    | .ok _ l' => l'.records.toList = l.records.toList ++ [entry.summary]
    | .error _ l' => l'.records = l.records := by
  unfold ingest
  by_cases hclosed : l.poisoned = true
  · rw [if_pos hclosed]
  rw [if_neg hclosed]
  cases l.checkLink entry.summary with
  | error e => rfl
  | ok _ =>
    dsimp only
    cases Archive.put entry.position entry.summary.stateRoot entry.state l.archive with
    | ok _ archive => exact toList_records_append _ _
    | error e archive => cases e <;> rfl

theorem records_prefix_ingest (entry : Snapshot) (l : Ledger τ) :
    l.records.toList <+: ((ingest entry).after l).records.toList := by
  have hrecords := records_of_ingest entry l
  rw [Operation.after_eq]
  cases hingest : ingest entry l with
  | ok _ l' =>
    rw [hingest] at hrecords
    exact ⟨[entry.summary], hrecords.symm⟩
  | error e l' =>
    rw [hingest] at hrecords
    exact ⟨[], (List.append_nil _).trans (congrArg Array.toList hrecords).symm⟩

/-- A hand-over adds the entries that it accepts to the records, wherever it stops. -/
theorem records_of_handOver (path : List Snapshot) (l : Ledger τ) :
    (Frontier.handOver path l).sink.records.toList =
      l.records.toList ++ (Frontier.handOver path l).accepted.map Snapshot.summary := by
  induction path generalizing l with
  | nil => exact (List.append_nil _).symm
  | cons entry path ih =>
    have hrecords := records_of_ingest entry l
    unfold Frontier.handOver
    simp only [Frontier.Sink.offer]
    cases hingest : ingest entry l with
    | ok _ l' =>
      rw [hingest] at hrecords
      dsimp only at hrecords ⊢
      rw [ih, hrecords, List.append_assoc]
      rfl
    | error e l' =>
      rw [hingest] at hrecords
      dsimp only at hrecords ⊢
      rw [hrecords]
      exact (List.append_nil _).symm

end

/-! ## 2. Where it is -/

/-- Each record is as many slots after the start as there are records before it, modulo `2 ^ 64`. -/
def Placed (l : Ledger τ) : Prop :=
  ∀ (i : Nat) (s : Summary), l.records[i]? = some s → s.slot = l.start + UInt64.ofNat i

theorem placed_empty (start : UInt64) (spec : Spec) (archive : τ) : (empty start spec archive).Placed := by
  intro i s hs
  cases hs

theorem Placed.append (h : l.Placed) (hslot : s.slot = l.next) : (l.append s).Placed := by
  intro i q hq
  rcases record_of_append hq with hq | ⟨rfl, rfl⟩
  · exact h i q hq
  · exact hslot

theorem Placed.ingested [Archive τ] (h : l.Placed) (entry : Snapshot) : ((ingest entry).after l).Placed := by
  rw [Operation.after_eq]
  unfold ingest
  split
  · exact h
  split
  · exact h
  next hlink =>
  cases Archive.put entry.position entry.summary.stateRoot entry.state l.archive with
  | ok _ archive => exact Placed.append (l := { l with archive := archive }) h (slot_of_checkLink hlink)
  | error e archive => cases e <;> exact h

/-! ## 3. As long as the slots fit -/

namespace Placed

variable (h : l.Placed) (hroom : l.start.toNat + l.records.size < 2 ^ 64)

include h hroom

theorem toNat_slot (i : Nat) (s : Summary) (hs : l.records.toList[i]? = some s) :
    s.slot.toNat = l.start.toNat + i := by
  rw [Array.getElem?_toList] at hs
  have hi := (Array.getElem?_eq_some_iff.1 hs).1
  rw [h i s hs, UInt64.toNat_add, UInt64.toNat_ofNat']
  omega

theorem record?_of_mem (hs : s ∈ l.records.toList) : l.record? s.slot = some s :=
  (record?_iff_of_slots (h.toNat_slot hroom)).2 ⟨hs, rfl⟩

theorem slot_lt_next (hs : s ∈ l.records.toList) : s.slot.toNat < l.next.toNat := by
  rw [toNat_next hroom]
  exact ((exists_record?_iff_of_slots (h.toNat_slot hroom)).1 ⟨s, h.record?_of_mem hroom hs⟩).2

/-- The records leave out no slot from the start up to that of a record. -/
theorem exists_record? (hs : s ∈ l.records.toList) {slot : UInt64} (hstart : l.start ≤ slot)
    (hslot : slot ≤ s.slot) : ∃ q ∈ l.records.toList, q.slot = slot ∧ l.record? slot = some q := by
  have hlast := h.slot_lt_next hroom hs
  rw [toNat_next hroom] at hlast
  rw [UInt64.le_iff_toNat_le] at hstart hslot
  obtain ⟨q, hq⟩ := (exists_record?_iff_of_slots (h.toNat_slot hroom)).2 ⟨hstart, by omega⟩
  obtain ⟨hmem, hat⟩ := (record?_iff_of_slots (h.toNat_slot hroom)).1 hq
  exact ⟨q, hmem, hat, hq⟩

end Placed

end BeaconHistory.Ledger
