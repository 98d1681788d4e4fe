import Std.Data.ExtTreeMap

/-!
# Lookup — maps read after they are written

The tables of a chain are ordered maps whose keys compare equal only if they are equal, so a read after
a write is decided by the equality of the two keys.
-/

namespace BeaconHistory.Lookup

variable {α β : Type} [Ord α] [Std.TransOrd α] [Std.LawfulEqOrd α] [DecidableEq α]

theorem getElem?_insert (m : Std.ExtTreeMap α β) (k a : α) (v : β) :
    (m.insert k v)[a]? = if k = a then some v else m[a]? := by
  rw [Std.ExtTreeMap.getElem?_insert]
  simp only [Std.LawfulEqCmp.compare_eq_iff_eq]

theorem getElem?_erase (m : Std.ExtTreeMap α β) (k a : α) :
    (m.erase k)[a]? = if k = a then none else m[a]? := by
  rw [Std.ExtTreeMap.getElem?_erase]
  simp only [Std.LawfulEqCmp.compare_eq_iff_eq]

theorem getElem?_insertIfNew (m : Std.ExtTreeMap α β) (k a : α) (v : β) :
    (m.insertIfNew k v)[a]? = if k = a ∧ m[a]? = none then some v else m[a]? := by
  have hnew : k ∉ m ↔ m[k]? = none := by
    rw [← Std.ExtTreeMap.isSome_getElem?_iff_mem]
    cases m[k]? <;> simp
  rw [Std.ExtTreeMap.getElem?_insertIfNew]
  by_cases hk : k = a
  · subst hk
    simp only [Std.LawfulEqCmp.compare_eq_iff_eq, hnew]
  · simp only [Std.LawfulEqCmp.compare_eq_iff_eq, hk, false_and, if_false]

/-- A map that has the first value of each key keeps it when it is written only for new keys. -/
theorem insertIfNew_of_first {γ : Type} {m : Std.ExtTreeMap α β} {l : List γ} {key : γ → α} {value : γ → β}
    (h : ∀ k : α, m[k]? = (l.find? fun c => key c = k).map value) (c : γ) (k : α) :
    (m.insertIfNew (key c) (value c))[k]? = ((l ++ [c]).find? fun c => key c = k).map value := by
  rw [getElem?_insertIfNew, h, List.find?_append]
  cases hfound : l.find? fun c => key c = k with
  | some c' => simp
  | none =>
    by_cases hk : key c = k
    · simp [hk]
    · simp [hk]

omit [Std.LawfulEqOrd α] [DecidableEq α] in
theorem mem_iff_exists (m : Std.ExtTreeMap α β) (k : α) : k ∈ m ↔ ∃ v, m[k]? = some v := by
  rw [Std.ExtTreeMap.mem_iff_isSome_getElem?, Option.isSome_iff_exists]

omit [Std.LawfulEqOrd α] [DecidableEq α] in
theorem mem_of_eq_some {m : Std.ExtTreeMap α β} {k : α} {v : β} (h : m[k]? = some v) : k ∈ m :=
  (mem_iff_exists m k).2 ⟨v, h⟩

end BeaconHistory.Lookup
