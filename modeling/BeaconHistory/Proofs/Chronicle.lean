import BeaconHistory.Snapshot
import Mathlib.Logic.Relation

/-!
# Chronicle — one line of history

A chronicle is a list of summaries, slot by slot, in which every entry either repeats the latest block
or is a block that was accepted.  Main statement: the blocks of a chronicle are the ancestors of its
last block by the parent roots of accepted blocks, and no others are.
-/

namespace BeaconHistory

def Summary.ofBlock (b : Block) : Summary := ⟨b.slot, b.root, b.parentRoot, b.stateRoot, false⟩

/-- `s` is an entry right after `q`. -/
structure Summary.Follows (s q : Summary) : Prop where
  slot : q.slot.toNat + 1 = s.slot.toNat
  root : s.linksTo = q.blockRoot

/-- An empty entry, or the entry of an accepted block. -/
def Summary.Backed (accepted : Block → Prop) (s : Summary) : Prop :=
  s.isEmpty = true ∨ ∃ b, accepted b ∧ s = .ofBlock b

/-- `log` leads slot by slot from `first` to `last`. -/
inductive Chronicle (accepted : Block → Prop) (first : Summary) : List Summary → Summary → Prop where
  | start : Chronicle accepted first [first] first
  | next {log : List Summary} {last s : Summary} (h : Chronicle accepted first log last)
      (hfollows : s.Follows last) (hbacked : s.Backed accepted) :
      Chronicle accepted first (log ++ [s]) s

/-- Block `y` was accepted with `x` as its parent. -/
def Links (accepted : Block → Prop) (y x : Root) : Prop :=
  ∃ b, accepted b ∧ b.root = y ∧ b.parentRoot = x

/-- Accepted blocks have roots of their own. -/
structure Distinct (accepted : Block → Prop) (first : Root) : Prop where
  unique : ∀ b b', accepted b → accepted b' → b.root = b'.root → b = b'
  foreign : ∀ b, accepted b → b.root ≠ first

namespace Chronicle

variable {accepted : Block → Prop} {first last : Summary} {log : List Summary}

/-! ## 1. Ends -/

theorem getLast? (h : Chronicle accepted first log last) : log.getLast? = some last := by
  cases h with
  | start => rfl
  | next => exact List.getLast?_concat

theorem ne_nil (h : Chronicle accepted first log last) : log ≠ [] := by
  intro hnil
  have hlast := h.getLast?
  rw [hnil] at hlast
  cases hlast

theorem last_mem (h : Chronicle accepted first log last) : last ∈ log :=
  List.mem_of_getLast? h.getLast?

theorem of_concat {s : Summary} (h : Chronicle accepted first (log ++ [s]) last) (hlog : log ≠ []) :
    last = s ∧ s.Backed accepted ∧ ∃ before, Chronicle accepted first log before ∧ s.Follows before := by
  generalize hlist : log ++ [s] = list at h
  cases h with
  | start =>
    obtain ⟨hnil, -⟩ := List.append_eq_singleton_iff.1 hlist |>.resolve_right fun h => by simp at h
    exact absurd hnil hlog
  | @next log' before _ h hfollows hbacked =>
    obtain ⟨rfl, hs⟩ := List.append_inj' hlist rfl
    cases hs
    exact ⟨rfl, hbacked, before, h, hfollows⟩

theorem of_prefix {pre : List Summary} (h : Chronicle accepted first log last) (hpre : pre <+: log)
    (hne : pre ≠ []) : ∃ last', Chronicle accepted first pre last' := by
  induction h with
  | start =>
    rcases List.prefix_cons_iff.1 hpre with rfl | ⟨rest, rfl, hrest⟩
    · exact absurd rfl hne
    · rw [List.prefix_nil.1 hrest]
      exact ⟨first, .start⟩
  | next h hfollows hbacked ih =>
    rcases List.prefix_concat_iff.1 hpre with rfl | hpre
    · exact ⟨_, .next h hfollows hbacked⟩
    · exact ih hpre

/-! ## 2. Slots -/

theorem slot_last (h : Chronicle accepted first log last) :
    last.slot.toNat + 1 = first.slot.toNat + log.length := by
  induction h with
  | start => rfl
  | next _ hfollows _ ih =>
    have := hfollows.slot
    rw [List.length_append, List.length_singleton]
    omega

theorem slot_getElem? (h : Chronicle accepted first log last) {i : Nat} {s : Summary}
    (hs : log[i]? = some s) : s.slot.toNat = first.slot.toNat + i := by
  induction h with
  | start =>
    cases i with
    | zero => cases hs; rfl
    | succ i => cases hs
  | @next log last s' h hfollows _ ih =>
    by_cases hi : i < log.length
    · rw [List.getElem?_append_left hi] at hs
      exact ih hs
    · have := h.slot_last
      have := hfollows.slot
      rw [List.getElem?_append_right (Nat.le_of_not_lt hi), List.getElem?_singleton] at hs
      split at hs
      · cases hs
        omega
      · cases hs

theorem eq_of_slot_eq (h : Chronicle accepted first log last) {q s : Summary} (hq : q ∈ log)
    (hs : s ∈ log) (heq : q.slot = s.slot) : q = s := by
  obtain ⟨i, hi⟩ := List.mem_iff_getElem?.1 hq
  obtain ⟨j, hj⟩ := List.mem_iff_getElem?.1 hs
  have hqslot := h.slot_getElem? hi
  have hsslot := h.slot_getElem? hj
  rw [heq] at hqslot
  have hij : i = j := by omega
  rw [hij, hj] at hi
  exact (Option.some.inj hi).symm

theorem exists_at_slot (h : Chronicle accepted first log last) {slot : UInt64}
    (hfirst : first.slot.toNat ≤ slot.toNat) (hlast : slot.toNat ≤ last.slot.toNat) :
    ∃ s ∈ log, s.slot = slot := by
  have hlength := h.slot_last
  have hi : slot.toNat - first.slot.toNat < log.length := by omega
  refine ⟨log[slot.toNat - first.slot.toNat], List.getElem_mem hi, ?_⟩
  have hslot := h.slot_getElem? (List.getElem?_eq_getElem hi)
  apply UInt64.toNat_inj.1
  omega

theorem slot_le_last (h : Chronicle accepted first log last) {s : Summary} (hs : s ∈ log) :
    s.slot.toNat ≤ last.slot.toNat := by
  obtain ⟨i, hi, hget⟩ := List.mem_iff_getElem.1 hs
  have hslot := h.slot_getElem? (List.getElem?_eq_some_iff.2 ⟨hi, hget⟩)
  have hlast := h.slot_last
  omega

theorem first_slot_le (h : Chronicle accepted first log last) {s : Summary} (hs : s ∈ log) :
    first.slot.toNat ≤ s.slot.toNat := by
  obtain ⟨i, hi⟩ := List.mem_iff_getElem?.1 hs
  rw [h.slot_getElem? hi]
  exact Nat.le_add_right _ _

theorem slots_pairwise (h : Chronicle accepted first log last) :
    log.Pairwise fun q s => q.slot.toNat < s.slot.toNat := by
  induction h with
  | start => exact List.pairwise_singleton _ _
  | @next log last s' h hfollows _ ih =>
    rw [List.pairwise_append]
    refine ⟨ih, List.pairwise_singleton _ _, ?_⟩
    intro q hq s hs
    have hle := h.slot_le_last hq
    have hslot := hfollows.slot
    rw [List.mem_singleton.1 hs]
    omega

/-! ## 3. Ancestors -/

theorem exists_accepted (h : Chronicle accepted first log last) {s : Summary} (hs : s ∈ log) :
    s.blockRoot = first.blockRoot ∨
      ∃ b, accepted b ∧ b.root = s.blockRoot ∧ b.slot.toNat ≤ s.slot.toNat := by
  induction h generalizing s with
  | start => exact Or.inl (congrArg Summary.blockRoot (List.mem_singleton.1 hs))
  | @next log last s' h hfollows hbacked ih =>
    rcases List.mem_append.1 hs with hs | hs
    · exact ih hs
    · rw [List.mem_singleton.1 hs]
      rcases hbacked with hempty | ⟨b, hb, rfl⟩
      · have hroot := hfollows.root
        have hslot := hfollows.slot
        rw [Summary.linksTo, if_pos hempty] at hroot
        rw [hroot]
        refine (ih h.last_mem).imp_right fun ⟨b, hb, hbroot, hle⟩ => ⟨b, hb, hbroot, by omega⟩
      · exact Or.inr ⟨b, hb, rfl, Nat.le_refl _⟩

theorem not_links_first (hd : Distinct accepted first.blockRoot) (x : Root) :
    ¬ Relation.TransGen (Links accepted) first.blockRoot x := by
  intro h
  obtain ⟨_, ⟨b, hb, hroot, -⟩, -⟩ := Relation.TransGen.head'_iff.1 h
  exact hd.foreign b hb hroot

theorem links_iff {root : Root} (hd : Distinct accepted root) {b : Block} (hb : accepted b) (x : Root) :
    Relation.TransGen (Links accepted) b.root x ↔
      Relation.ReflTransGen (Links accepted) b.parentRoot x := by
  rw [Relation.TransGen.head'_iff]
  constructor
  · rintro ⟨z, ⟨b', hb', hroot, rfl⟩, hrest⟩
    rw [hd.unique b' b hb' hb hroot] at hrest
    exact hrest
  · intro hrest
    exact ⟨b.parentRoot, ⟨b, hb, rfl, rfl⟩, hrest⟩

theorem blockRoot_ne (h : Chronicle accepted first log last) (hd : Distinct accepted first.blockRoot)
    {b : Block} (hb : accepted b) (hslot : last.slot.toNat < b.slot.toNat) {s : Summary} (hs : s ∈ log) :
    s.blockRoot ≠ b.root := by
  intro hroot
  rcases h.exists_accepted hs with hfirst | ⟨b', hb', hroot', hle⟩
  · exact hd.foreign b hb (hroot.symm.trans hfirst)
  · -- The same block would be at two slots.
    have hsame := hd.unique b' b hb' hb (hroot'.trans hroot)
    have := h.slot_le_last hs
    rw [hsame] at hle
    omega

-- The entries of one block follow each other without another block in between.
theorem blockRoot_of_between (h : Chronicle accepted first log last)
    (hd : Distinct accepted first.blockRoot) {q m s : Summary} (hq : q ∈ log) (hm : m ∈ log) (hs : s ∈ log)
    (hqm : q.slot ≤ m.slot) (hms : m.slot ≤ s.slot) (hroot : q.blockRoot = s.blockRoot) :
    m.blockRoot = s.blockRoot := by
  induction h generalizing s with
  | start => rw [List.mem_singleton.1 hm, List.mem_singleton.1 hs]
  | @next log last s' h hfollows hbacked ih =>
    rw [UInt64.le_iff_toNat_le] at hqm hms
    have hslot := hfollows.slot
    -- An entry that is no later than one of `log` is not the new one.
    have hold {x y : Summary} (hx : x ∈ log ++ [s']) (hy : y ∈ log) (hle : x.slot.toNat ≤ y.slot.toNat) :
        x ∈ log := by
      rcases List.mem_append.1 hx with hx | hx
      · exact hx
      · have := h.slot_le_last hy
        rw [List.mem_singleton.1 hx] at hle
        omega
    rcases List.mem_append.1 hs with hs | hs
    · have hm := hold hm hs hms
      exact ih (hold hq hm hqm) hm hs (UInt64.le_iff_toNat_le.2 hms) hroot
    · rw [List.mem_singleton.1 hs] at hroot ⊢
      rcases List.mem_append.1 hm with hm | hm
      · have hqOld := hold hq hm hqm
        rcases hbacked with hempty | ⟨b, hb, rfl⟩
        · have hlink := hfollows.root
          rw [Summary.linksTo, if_pos hempty] at hlink
          rw [hlink] at hroot ⊢
          exact ih hqOld hm h.last_mem (UInt64.le_iff_toNat_le.2 (h.slot_le_last hm)) hroot
        · exact absurd hroot (h.blockRoot_ne hd hb (Nat.lt_of_succ_le (Nat.le_of_eq hslot)) hqOld)
      · rw [List.mem_singleton.1 hm]

/-- The ancestors of the last block are the other blocks of the chronicle. -/
theorem descends_iff (h : Chronicle accepted first log last) (hd : Distinct accepted first.blockRoot)
    (x : Root) :
    Relation.TransGen (Links accepted) last.blockRoot x ↔
      x ≠ last.blockRoot ∧ ∃ s ∈ log, s.blockRoot = x := by
  induction h with
  | start =>
    refine ⟨fun h => absurd h (not_links_first hd x), ?_⟩
    rintro ⟨hne, s, hs, rfl⟩
    exact absurd (congrArg Summary.blockRoot (List.mem_singleton.1 hs)) hne
  | @next log last s h hfollows hbacked ih =>
    simp only [List.mem_append, List.mem_singleton]
    have hlink := hfollows.root
    rcases hbacked with hempty | ⟨b, hb, rfl⟩
    · -- An empty entry carries the block of the entry before.
      rw [Summary.linksTo, if_pos hempty] at hlink
      rw [hlink, ih]
      refine and_congr_right fun hne => ⟨fun ⟨q, hq, hx⟩ => ⟨q, Or.inl hq, hx⟩, ?_⟩
      rintro ⟨q, hq | rfl, hx⟩
      · exact ⟨q, hq, hx⟩
      · exact absurd (hx.symm.trans hlink) hne
    · -- A block links to the entry before, whose block and ancestors are all that was there.
      have hparent : b.parentRoot = last.blockRoot := hlink
      have hslot : last.slot.toNat + 1 = b.slot.toNat := hfollows.slot
      show Relation.TransGen (Links accepted) b.root x ↔ x ≠ b.root ∧ _
      rw [links_iff hd hb, hparent, Relation.reflTransGen_iff_eq_or_transGen, ih]
      constructor
      · intro hcase
        have hx : ∃ q ∈ log, q.blockRoot = x := by
          rcases hcase with rfl | ⟨-, hx⟩
          · exact ⟨last, h.last_mem, rfl⟩
          · exact hx
        obtain ⟨q, hq, rfl⟩ := hx
        exact ⟨h.blockRoot_ne hd hb (by omega) hq, q, Or.inl hq, rfl⟩
      · rintro ⟨hne, q, hq | rfl, rfl⟩
        · by_cases hlast : q.blockRoot = last.blockRoot
          · exact Or.inl hlast
          · exact Or.inr ⟨hlast, q, hq, rfl⟩
        · exact absurd rfl hne

-- Of two entries, the one at the earlier slot carries the same block or an ancestor.
theorem descends_of_slot_le (h : Chronicle accepted first log last)
    (hd : Distinct accepted first.blockRoot) {q s : Summary} (hq : q ∈ log) (hs : s ∈ log)
    (hle : q.slot.toNat ≤ s.slot.toNat) :
    q.blockRoot = s.blockRoot ∨ Relation.TransGen (Links accepted) s.blockRoot q.blockRoot := by
  induction h with
  | start =>
    rw [List.mem_singleton.1 hq, List.mem_singleton.1 hs]
    exact Or.inl rfl
  | @next log last s' h hfollows hbacked ih =>
    rcases List.mem_append.1 hs with hs | hs
    · rcases List.mem_append.1 hq with hq | hq
      · exact ih hq hs
      · -- The last entry is later than all others.
        have := h.slot_le_last hs
        have := hfollows.slot
        rw [List.mem_singleton.1 hq] at hle
        omega
    · rw [List.mem_singleton.1 hs]
      by_cases hroot : q.blockRoot = s'.blockRoot
      · exact Or.inl hroot
      · exact Or.inr (((h.next hfollows hbacked).descends_iff hd _).2 ⟨hroot, q, hq, rfl⟩)

end Chronicle

end BeaconHistory
