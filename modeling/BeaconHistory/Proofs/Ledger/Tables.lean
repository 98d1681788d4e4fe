import BeaconHistory.Proofs.Archive.WriteOnce
import BeaconHistory.Proofs.Ledger.Ingest

/-!
# Ledger.Tables — a ledger whose archive is in memory

Tables refuse a position that is bound to another root.  A ledger binds one position for each slot, in
order, so its tables have no reason to refuse.
-/

namespace BeaconHistory

namespace Ledger

open Archive (Tables)
open Frontier (handOver)

variable {l : Ledger Tables} {accepted : Block → Prop} {first : Summary}

/-- The tables bind no position from the next slot on. -/
def Filed (l : Ledger Tables) : Prop :=
  ∀ (p : Position) (root : Root), l.archive.positions[p.encode]? = some root →
    p.slot.toNat < l.start.toNat + l.records.size

theorem tables_steady : Archive.Steady Tables := by
  intro position root state tables fault tables' hbroke
  rcases tables.put_cases position root state with ⟨_, -, -, hput⟩ | ⟨-, hput⟩
  · cases hput.symm.trans hbroke
  · cases hput.symm.trans hbroke

theorem put_eq_ok {t : Tables} {p : Position} (h : t.positions[p.encode]? = none) (root : Root)
    (state : State) : Archive.put p root state t = .ok () (t.file p root state) := by
  rcases t.put_cases p root state with ⟨_, hbound, -, -⟩ | ⟨-, hput⟩
  · rw [h] at hbound
    cases hbound
  · exact hput

theorem Filed.appended (h : l.Filed) {s : Summary} (hslot : s.slot.toNat = l.start.toNat + l.records.size)
    (state : State) :
    (append { l with archive := l.archive.file s.position s.stateRoot state } s).Filed := by
  intro p root hbound
  have hbound : (l.archive.positions.insert s.position.encode s.stateRoot)[p.encode]? = some root :=
    hbound
  show p.slot.toNat < l.start.toNat + (l.records.push s).size
  rw [Array.size_push]
  rw [Lookup.getElem?_insert] at hbound
  by_cases heq : s.position.encode = p.encode
  · have hp : p.slot = s.slot := congrArg Position.slot (Position.encode_injective heq).symm
    rw [hp, hslot]
    omega
  · rw [if_neg heq] at hbound
    have := h p root hbound
    omega

/-- A ledger on tables takes all entries that continue its records. -/
theorem Filed.handed (hfiled : l.Filed) (h : l.Keeps accepted first) {path : List Snapshot}
    (hpath : ∃ last, Chronicle accepted first (l.records.toList ++ path.map Snapshot.summary) last) :
    (handOver path l).stopped = none ∧ (handOver path l).sink.Filed := by
  induction path generalizing l with
  | nil => exact ⟨rfl, hfiled⟩
  | cons entry path ih =>
    obtain ⟨last, hlast⟩ := hpath
    rw [List.map_cons, List.append_cons] at hlast
    have hentry : ∃ last, Chronicle accepted first (l.records.toList ++ [entry.summary]) last :=
      hlast.of_prefix (List.prefix_append _ _) (by simp)
    have hslot : entry.summary.slot.toNat = l.start.toNat + l.records.size := by
      obtain ⟨_, hchronicle⟩ := hentry
      rw [h.start, ← Array.length_toList]
      exact hchronicle.slot_getElem? List.getElem?_concat_length
    -- What the tables bind is at earlier slots.
    have hunbound : l.archive.positions[entry.position.encode]? = none := by
      cases hbound : l.archive.positions[entry.position.encode]? with
      | none => rfl
      | some root =>
        have hlt : entry.summary.slot.toNat < _ := hfiled entry.position root hbound
        omega
    have hput := put_eq_ok hunbound entry.summary.stateRoot entry.state
    unfold handOver
    simp only [Frontier.Sink.offer]
    rw [ingest_eq h.opened (h.checkLink hentry), hput]
    have hrecords : (append { l with
        archive := l.archive.file entry.position entry.summary.stateRoot entry.state }
          entry.summary).records.toList = l.records.toList ++ [entry.summary] :=
      toList_records_append _ _
    exact ih (hfiled.appended hslot entry.state) (h.appended hentry _) ⟨last, hrecords ▸ hlast⟩

end Ledger

end BeaconHistory
