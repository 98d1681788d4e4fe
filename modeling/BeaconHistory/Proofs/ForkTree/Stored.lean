import BeaconHistory.Proofs.ForkTree.Growing
import BeaconHistory.Proofs.ForkTree.Reanchor

/-!
# ForkTree.Stored — what no hash can change

A tree grows by insertions only, and an insertion keeps its entry under its own position, whatever the
roots are.  Main statements: whatever insertions keep is kept by every growth, refused or not, so the
anchor, the constants and the place of every entry are; and moving the anchor keeps the place of every
entry too.
-/

namespace BeaconHistory.ForkTree

variable {t : ForkTree}

/-! ## 1. Growth -/

section

variable {I : ForkTree → Prop} (hinsert : ∀ t entry tip, I t → I (insert t entry tip))

include hinsert

theorem keeps_extendOnce (tip : Position) : (extendOnce tip).Keeps I := by
  intro t ht
  rw [Operation.after_eq]
  unfold extendOnce
  split
  · exact ht
  · cases emptyAfter tip t with
    | ok entry => exact hinsert t entry tip ht
    | error e => exact ht

theorem keeps_extend (n : Nat) (tip : Position) : (extend n tip).Keeps I := by
  induction n generalizing tip with
  | zero => exact Operation.keeps_pure tip
  | succ n ih => exact (keeps_extendOnce hinsert tip).bind ih

theorem keeps_insertOn (b : Block) (parent : Position) : (insertOn b parent).Keeps I := by
  refine (keeps_extend hinsert _ parent).bind fun tip => ?_
  refine (keeps_extend hinsert _ tip).bind fun pre => ?_
  refine (Operation.keeps_ofOutcome (applied b pre)).bind fun post => ?_
  refine Operation.Keeps.bind ?_ fun _ => Operation.keeps_pure post
  exact fun t ht => hinsert t post tip ht

theorem keeps_insertBlock (b : Block) : (insertBlock b).Keeps I := by
  refine Operation.keeps_get_bind fun t ht => ?_
  split
  · exact ht
  split
  · exact ht
  split
  · exact ht
  split
  · exact ht
  · exact keeps_insertOn hinsert b _ t ht

theorem keeps_reachSlot (root : Root) (slot : UInt64) : (reachSlot root slot).Keeps I := by
  refine Operation.keeps_get_bind fun t ht => ?_
  split
  · exact ht
  · exact (keeps_extend hinsert _ _).discard t ht

end

/-! ## 2. The place of every entry -/

/-- Every node is kept under the position of its entry. -/
def Stored (t : ForkTree) : Prop :=
  ∀ (p : Position) (node : Node), t.nodes[p]? = some node → node.entry.position = p

theorem stored_plant (spec : Spec) (anchor : Snapshot) : (plant spec anchor).Stored := by
  intro p node hnode
  obtain ⟨rfl, rfl⟩ := nodes_plant_iff.1 hnode
  rfl

theorem Stored.insert (h : t.Stored) (entry : Snapshot) (tip : Position) : (t.insert entry tip).Stored := by
  intro p node hnode
  rcases nodes_insert_iff.1 hnode with ⟨hp, rfl⟩ | ⟨-, hnode⟩
  · exact hp.symm
  · exact h p node hnode

-- Sorting out keeps a node under its position, with its entry.
theorem exists_of_kept {a p : Position} {node : Node} (items : List (Position × Node)) (s : Sorted)
    (h : (items.foldl (Sorted.add a) s).kept[p]? = some node) :
    s.kept[p]? = some node ∨ ∃ old, (p, old) ∈ items ∧ old.entry = node.entry := by
  induction items generalizing s with
  | nil => exact Or.inl h
  | cons item items ih =>
    obtain ⟨q, new⟩ := item
    rcases ih _ h with hkept | ⟨old, hmem, hentry⟩
    · have hwritten (link : Option Position) (hinsert : (s.kept.insert q ⟨new.entry, link⟩)[p]? = some node) :
          s.kept[p]? = some node ∨ ∃ old, (p, old) ∈ (q, new) :: items ∧ old.entry = node.entry := by
        rw [Lookup.getElem?_insert] at hinsert
        by_cases hq : q = p
        · rw [if_pos hq] at hinsert
          cases hinsert
          exact Or.inr ⟨new, hq ▸ List.mem_cons_self, rfl⟩
        · rw [if_neg hq] at hinsert
          exact Or.inl hinsert
      unfold Sorted.add at hkept
      dsimp only at hkept
      split at hkept
      · exact hwritten none hkept
      split at hkept
      · exact hwritten new.parent hkept
      · exact Or.inl hkept
    · exact Or.inr ⟨old, List.mem_cons_of_mem _ hmem, hentry⟩

theorem Stored.reanchor (h : t.Stored) (a : Position) : (t.reanchor a).1.Stored := by
  intro p node hnode
  rcases exists_of_kept t.nodes.toList ⟨∅, []⟩ hnode with hnone | ⟨old, hmem, hentry⟩
  · simp at hnone
  · rw [← hentry]
    exact h p old (Std.ExtTreeMap.mem_toList_iff_getElem?_eq_some.1 hmem)

end BeaconHistory.ForkTree
