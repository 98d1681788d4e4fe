import BeaconHistory.Snapshot
import Mathlib.Algebra.Group.Nat.Defs

/-!
# Slots — the entries that carry one block

A block is carried by its own entry and by those of the empty slots after it.  Both regions find the
latest of them by stepping from slot to slot as long as the next one still carries the block.  Main
statement: where the slots that carry it leave no gap, this ends at the latest one.
-/

namespace BeaconHistory

namespace Slots

/-- The slot reached from `slot` by steps to a slot where `held` is true, at most a count of them. -/
def last (held : UInt64 → Bool) : Nat → UInt64 → UInt64
  | 0, slot => slot
  | n + 1, slot => if held (slot + 1) then last held n (slot + 1) else slot

variable {held : UInt64 → Bool} {n : Nat} {slot : UInt64}

theorem toNat_add_one (slot : UInt64) (h : slot.toNat + 1 < 2 ^ 64) : (slot + 1).toNat = slot.toNat + 1 := by
  rw [UInt64.toNat_add, UInt64.toNat_one]
  exact Nat.mod_eq_of_lt h

theorem last_bounds (held : UInt64 → Bool) (hbound : slot.toNat + n < 2 ^ 64) :
    slot.toNat ≤ (last held n slot).toNat ∧ (last held n slot).toNat ≤ slot.toNat + n := by
  induction n generalizing slot with
  | zero => exact ⟨Nat.le_refl _, Nat.le_refl _⟩
  | succ n ih =>
    have hnext := toNat_add_one slot (by omega)
    unfold last
    split
    · have := @ih (slot + 1) (by omega)
      omega
    · omega

theorem held_last (held : UInt64 → Bool) (n : Nat) (hslot : held slot = true) :
    held (last held n slot) = true := by
  induction n generalizing slot with
  | zero => exact hslot
  | succ n ih =>
    unfold last
    split
    · next hnext => exact ih hnext
    · exact hslot

-- The steps end where the next slot is not held, or after all of them.
theorem last_ends (held : UInt64 → Bool) (hbound : slot.toNat + n < 2 ^ 64) :
    (last held n slot).toNat = slot.toNat + n ∨ held (last held n slot + 1) = false := by
  induction n generalizing slot with
  | zero => exact Or.inl rfl
  | succ n ih =>
    have hnext := toNat_add_one slot (by omega)
    unfold last
    split
    · exact (@ih (slot + 1) (by omega)).imp_left fun hend => by omega
    · next hheld => exact Or.inr (Bool.eq_false_iff.2 hheld)

/-- Without gaps, no slot that is held and in reach is later than the one where the steps end. -/
theorem le_last (hbound : slot.toNat + n < 2 ^ 64)
    (hgapless : ∀ s m : UInt64, held s = true → slot ≤ m → m ≤ s → held m = true) {s : UInt64}
    (hs : held s = true) (hreach : s.toNat ≤ slot.toNat + n) :
    s.toNat ≤ (last held n slot).toNat := by
  have hbounds := last_bounds held hbound
  rcases last_ends held hbound with hend | hfree
  · omega
  · refine Nat.not_lt.1 fun hlt => ?_
    have hnext := toNat_add_one (last held n slot) (by have := s.toNat_lt; omega)
    have hheld := hgapless s (last held n slot + 1) hs
      (UInt64.le_iff_toNat_le.2 (by omega)) (UInt64.le_iff_toNat_le.2 (by omega))
    rw [hfree] at hheld
    cases hheld

end Slots

variable {α : Type}

/-- `e` is the first of the entries that carry `block`. -/
structure Earliest (holds : α → Prop) (summary : α → Summary) (block : Root) (e : α) : Prop where
  held : holds e
  root : (summary e).blockRoot = block
  earliest : ∀ e', holds e' → (summary e').blockRoot = block → (summary e).slot ≤ (summary e').slot

/-- `e` is the latest of the entries that carry `block` up to `bound`. -/
structure Latest (holds : α → Prop) (summary : α → Summary) (block : Root) (bound : UInt64) (e : α) :
    Prop where
  held : holds e
  root : (summary e).blockRoot = block
  slot_le : (summary e).slot ≤ bound
  latest : ∀ e', holds e' → (summary e').blockRoot = block → (summary e').slot ≤ bound →
    (summary e').slot ≤ (summary e).slot

variable {holds : α → Prop} {summary : α → Summary} {block : Root} {bound : UInt64} {e e' : α}

theorem Summary.position_eq_of {s s' : Summary} (hslot : s.slot = s'.slot)
    (hroot : s.blockRoot = s'.blockRoot) : s.position = s'.position := by
  unfold Summary.position
  rw [hslot, hroot]

theorem Earliest.position_eq (h : Earliest holds summary block e)
    (h' : Earliest holds summary block e') : (summary e).position = (summary e').position :=
  Summary.position_eq_of
    (UInt64.le_antisymm (h.earliest e' h'.held h'.root) (h'.earliest e h.held h.root))
    (h.root.trans h'.root.symm)

theorem Latest.position_eq (h : Latest holds summary block bound e)
    (h' : Latest holds summary block bound e') : (summary e).position = (summary e').position :=
  Summary.position_eq_of
    (UInt64.le_antisymm (h'.latest e h.held h.root h.slot_le) (h.latest e' h'.held h'.root h'.slot_le))
    (h.root.trans h'.root.symm)

end BeaconHistory
