import BeaconHistory.ForkTree.Basic
import Mathlib.Order.Defs.Unbundled

/-!
# Position — places in order, and as bytes

A walk through a map of positions meets them in their order, while an archive keeps them under their
stored form, whose bytes have an order of their own.  Main statement: the stored forms are the strings of
forty bytes, one for each position, and positions are strictly ordered by slot first, so a walk has met
everything at an earlier slot before it comes to a position.
-/

namespace BeaconHistory.Position

variable {p q r : Position}

/-! ## 1. Stored form -/

-- Every string of forty bytes is the stored form of a position.
theorem exists_decode? {bytes : List UInt8} (h : bytes.length = 40) : ∃ p, decode? bytes = some p := by
  have hroot : (bytes.take 32).length = 32 := by simp [h]
  simp [decode?, Root.ofBytes?, h]

theorem encode_injective (h : p.encode = q.encode) : p = q := by
  have hdecode := congrArg decode? h
  rw [decode?_encode, decode?_encode] at hdecode
  exact Option.some.inj hdecode

/-! ## 2. Order -/

/-- `p` comes before `q`. -/
def Precedes (p q : Position) : Prop := compare p q = .lt

/-- The slots decide, and the roots only within a slot. -/
theorem precedes_iff :
    p.Precedes q ↔ p.slot < q.slot ∨ p.slot = q.slot ∧ compare p.root q.root = .lt := by
  show (compare p.slot q.slot).then (compare p.root q.root) = .lt ↔ _
  rw [Ordering.then_eq_lt, Std.compare_eq_lt, Std.LawfulEqOrd.compare_eq_iff_eq]

theorem not_precedes_self (p : Position) : ¬ p.Precedes p := by
  unfold Precedes
  rw [Std.compare_self]
  decide

theorem Precedes.asymm (h : p.Precedes q) : ¬ q.Precedes p := by
  unfold Precedes at h ⊢
  rw [Std.OrientedOrd.eq_swap, h]
  decide

-- Of two positions that are not equal, one comes before the other.
theorem eq_of_not_precedes (hpq : ¬ p.Precedes q) (hqp : ¬ q.Precedes p) : p = q := by
  apply Std.LawfulEqOrd.eq_of_compare
  unfold Precedes at hpq hqp
  rw [Std.OrientedOrd.eq_swap] at hqp
  cases hcompare : compare p q with
  | lt => exact absurd hcompare hpq
  | eq => rfl
  | gt => exact absurd (by rw [hcompare]; rfl) hqp

instance : IsStrictTotalOrder Position Precedes where
  trichotomous _ _ := eq_of_not_precedes
  irrefl := not_precedes_self
  trans _ _ _ := Std.TransCmp.lt_trans

/-! ## 3. Walks -/

/-- A walk that has come to `p` has met everything at an earlier slot. -/
theorem mem_before_of_slot_lt {α : Type} {items : Std.ExtTreeMap Position α}
    {before after : List (Position × α)} {x y : α} (hwalk : items.toList = before ++ (p, x) :: after)
    (hq : items[q]? = some y) (hslot : q.slot < p.slot) : (q, y) ∈ before := by
  have hprecedes : q.Precedes p := compare_of_slot_lt hslot
  have hordered := Std.ExtTreeMap.ordered_keys_toList (t := items)
  rw [← Std.ExtTreeMap.mem_toList_iff_getElem?_eq_some, hwalk, List.mem_append, List.mem_cons] at hq
  rw [hwalk, List.pairwise_append, List.pairwise_cons] at hordered
  rcases hq with hmem | heq | hmem
  · exact hmem
  · cases heq
    exact absurd hprecedes (not_precedes_self p)
  · exact absurd (hordered.2.1.1 (q, y) hmem) hprecedes.asymm

/-- Positions and the strings of forty bytes stand for each other, so no two positions share a stored form.
The order of positions is strict and total and goes by slot first, whatever the roots, so a walk through the
nodes of a tree has met all those at an earlier slot, the parent among them, when it comes to a node. -/
theorem stored_and_ordered :
    (∀ p : Position, p.encode.length = 40 ∧ decode? p.encode = some p) ∧
    (∀ bytes : List UInt8, bytes.length = 40 → ∃ p, decode? bytes = some p ∧ p.encode = bytes) ∧
    (∀ p q : Position, p.encode = q.encode → p = q) ∧
    IsStrictTotalOrder Position Precedes ∧
    (∀ p q : Position,
      p.Precedes q ↔ p.slot < q.slot ∨ p.slot = q.slot ∧ compare p.root q.root = .lt) ∧
    (∀ p q : Position, p.slot < q.slot → p.Precedes q) ∧
    ∀ (t : ForkTree) (p : Position) (node : ForkTree.Node) (before after : List (Position × ForkTree.Node)),
      t.nodes.toList = before ++ (p, node) :: after →
        ∀ q other, t.nodes[q]? = some other → q.slot < p.slot → (q, other) ∈ before := by
  refine ⟨fun p => ⟨length_encode p, decode?_encode p⟩, fun bytes h => ?_, fun p q => encode_injective,
    inferInstance, fun p q => precedes_iff, fun p q => compare_of_slot_lt, ?_⟩
  · obtain ⟨p, hp⟩ := exists_decode? h
    exact ⟨p, hp, encode_of_decode? hp⟩
  · intro t p node before after hwalk q other hq hslot
    exact mem_before_of_slot_lt hwalk hq hslot

end BeaconHistory.Position
