import BeaconHistory.Archive.Shared
import BeaconHistory.Proofs.Lookup
import BeaconHistory.Proofs.Outcome
import BeaconHistory.Proofs.Position
import Mathlib.Data.Finset.Dedup
import Mathlib.Data.Finset.Card

/-!
# Archive.WriteOnce — what an archive in memory holds

One table is written by stored positions and the other by roots, and handles are cloned and written through
in any order.  Main statement: an archive answers each position with the first root that was bound to it
through any of its handles, and each root with the first state that was filed under it.
-/

namespace BeaconHistory

namespace Archive

/-! ## 1. One archive -/

namespace Tables

/-- A write is refused where the position is bound to another root; otherwise it is made. -/
theorem put_cases (t : Tables) (p : Position) (root : Root) (state : State) :
    (∃ boundTo, t.positions[p.encode]? = some boundTo ∧ boundTo ≠ root ∧
      put p root state t = .error (.refused (.conflict (.position p boundTo))) t) ∨
    ((∀ boundTo, t.positions[p.encode]? = some boundTo → boundTo = root) ∧
      put p root state t = .ok () (t.file p root state)) := by
  unfold put
  cases hbound : t.positions[p.encode]? with
  | none => exact Or.inr ⟨fun _ h => (by cases h), rfl⟩
  | some boundTo =>
    dsimp only
    by_cases heq : boundTo = root
    · rw [if_pos heq]
      refine Or.inr ⟨fun other h => ?_, rfl⟩
      cases h
      exact heq
    · rw [if_neg heq]
      exact Or.inl ⟨boundTo, rfl, heq, rfl⟩

/-- The tables hold the root of the first filing at each position and the state of the first under each
root, and no two filings bind a position to different roots. -/
structure Records (t : Tables) (made : List Filing) : Prop where
  positions : ∀ p : Position,
    t.positions[p.encode]? = (made.find? fun m => m.position = p).map Filing.root
  states : ∀ root : Root, t.states[root]? = (made.find? fun m => m.root = root).map Filing.state
  size : t.states.size = (made.map Filing.root).toFinset.card
  agree : ∀ m ∈ made, t.positions[m.position.encode]? = some m.root

theorem records_empty : Records .empty [] :=
  ⟨fun _ => Std.ExtTreeMap.getElem?_empty, fun _ => Std.ExtTreeMap.getElem?_empty, rfl,
    fun _ h => (by cases h)⟩

variable {t : Tables} {made : List Filing}

theorem Records.mem_states_iff (h : t.Records made) (root : Root) :
    root ∈ t.states ↔ root ∈ made.map Filing.root := by
  rw [Lookup.mem_iff_exists, h.states, List.mem_map]
  constructor
  · rintro ⟨state, hstate⟩
    obtain ⟨m, hm, -⟩ := Option.map_eq_some_iff.1 hstate
    have hroot := List.find?_some hm
    exact ⟨m, List.mem_of_find?_eq_some hm, of_decide_eq_true hroot⟩
  · rintro ⟨m, hm, hroot⟩
    cases hfound : made.find? fun m => m.root = root with
    | some m' => exact ⟨m'.state, rfl⟩
    | none => exact absurd (decide_eq_true hroot) (List.find?_eq_none.1 hfound m hm)

theorem getElem?_positions_file (t : Tables) (p q : Position) (root : Root) (state : State) :
    (t.file p root state).positions[q.encode]? = if p = q then some root else t.positions[q.encode]? := by
  show (t.positions.insert p.encode root)[q.encode]? = _
  rw [Lookup.getElem?_insert]
  by_cases hp : p = q
  · rw [if_pos hp, if_pos (congrArg Position.encode hp)]
  · rw [if_neg hp, if_neg fun h => hp (Position.encode_injective h)]

/-- A write that is made is recorded after those before it. -/
theorem Records.filed (h : t.Records made) {f : Filing}
    (hfree : ∀ boundTo, t.positions[f.position.encode]? = some boundTo → boundTo = f.root) :
    (t.file f.position f.root f.state).Records (made ++ [f]) where
  positions p := by
    rw [getElem?_positions_file, List.find?_append]
    by_cases hp : f.position = p
    · subst hp
      rw [if_pos rfl]
      -- If the position was bound before, then to the same root.
      cases hfound : made.find? fun m => m.position = f.position with
      | none => simp
      | some m =>
        have hbound := hfree m.root (by rw [h.positions, hfound]; rfl)
        simp [hbound]
    · rw [if_neg hp, h.positions]
      simp [hp]
  states root := Lookup.insertIfNew_of_first h.states f root
  size := by
    have hroots : ((made ++ [f]).map Filing.root).toFinset =
        insert f.root (made.map Filing.root).toFinset := by
      rw [List.map_append, List.map_singleton, List.toFinset_append, Finset.union_comm]
      rfl
    show (t.states.insertIfNew f.root f.state).size = _
    rw [hroots, Std.ExtTreeMap.size_insertIfNew, h.size]
    by_cases hold : f.root ∈ t.states
    · rw [if_pos hold, Finset.card_insert_of_mem (List.mem_toFinset.2 ((h.mem_states_iff _).1 hold))]
    · rw [if_neg hold, Finset.card_insert_of_notMem]
      exact fun hmem => hold ((h.mem_states_iff _).2 (List.mem_toFinset.1 hmem))
  agree m hm := by
    rw [getElem?_positions_file]
    rcases List.mem_append.1 hm with hm | hm
    · by_cases hp : f.position = m.position
      · rw [if_pos hp, ← hfree m.root (by rw [hp]; exact h.agree m hm)]
      · rw [if_neg hp]
        exact h.agree m hm
    · rw [List.mem_singleton.1 hm, if_pos rfl]

end Tables

/-! ## 2. Handles -/

namespace Shared

/-- What is done with archives in memory, one call at a time. -/
inductive Call where
  | opened
  | cloned (handle : Nat)
  | put (handle : Nat) (filing : Filing)

def Call.next (s : Shared) : Call → Shared
  | .opened => s.opened
  | .cloned handle => s.cloned handle
  | .put handle filing => (Shared.put handle filing).after s

-- What a call files in the archive of index `i`.
def Call.made (i : Nat) (s : Shared) : Call → List Filing
  | .put handle filing =>
    if s.handles[handle]? = some i then
      match (Shared.put handle filing).outcome s with
      | .ok _ => [filing]
      | .error _ => []
    else []
  | _ => []

def play (calls : List Call) (s : Shared) : Shared := calls.foldl Call.next s

-- What a number of calls file in the archive of index `i`, through whichever handles.
def made (i : Nat) : List Call → Shared → List Filing
  | [], _ => []
  | call :: calls, s => call.made i s ++ made i calls (call.next s)

/-- Every handle reaches an archive, and every archive holds what was filed in it. -/
structure Keeps (s : Shared) (made : Nat → List Filing) : Prop where
  reach : ∀ i ∈ s.handles, i < s.tables.length
  records : ∀ (i : Nat) (t : Tables), s.tables[i]? = some t → t.Records (made i)
  unopened : ∀ i, s.tables.length ≤ i → made i = []

variable {s : Shared} {handle i : Nat} {t : Tables} {made : Nat → List Filing}

theorem keeps_empty : Keeps .empty fun _ => [] :=
  ⟨fun _ h => (by cases h), fun _ _ h => (by cases h), fun _ _ => rfl⟩

/-- A call through a handle is a call of the archive it reaches, and leaves the others alone. -/
theorem put_cases_of_reach (hi : s.handles[handle]? = some i) (ht : s.tables[i]? = some t) (f : Filing) :
    (∃ boundTo, t.positions[f.position.encode]? = some boundTo ∧ boundTo ≠ f.root ∧
      put handle f s = .error (.refused (.conflict (.position f.position boundTo))) s) ∨
    ((∀ boundTo, t.positions[f.position.encode]? = some boundTo → boundTo = f.root) ∧
      put handle f s =
        .ok () { s with tables := s.tables.set i (t.file f.position f.root f.state) }) := by
  have hreached : s.reached? handle = some t := by
    unfold reached?
    rw [hi]
    exact ht
  unfold put
  rw [hi, hreached]
  rcases Tables.put_cases t f.position f.root f.state with ⟨boundTo, hbound, hne, hput⟩ | ⟨hfree, hput⟩
  · refine Or.inl ⟨boundTo, hbound, hne, ?_⟩
    obtain ⟨hlt, rfl⟩ := List.getElem?_eq_some_iff.1 ht
    simp only [hput, List.set_getElem_self]
  · exact Or.inr ⟨hfree, by simp only [hput]⟩

namespace Keeps

theorem exists_tables (h : s.Keeps made) (hi : s.handles[handle]? = some i) :
    ∃ t, s.tables[i]? = some t ∧ t.Records (made i) := by
  have hlt := h.reach i (List.mem_of_getElem? hi)
  exact ⟨_, List.getElem?_eq_getElem hlt, h.records i _ (List.getElem?_eq_getElem hlt)⟩

theorem opened (h : s.Keeps made) : s.opened.Keeps made where
  reach i hi := by
    show i < (s.tables ++ [Tables.empty]).length
    rw [List.length_append, List.length_singleton]
    rcases List.mem_append.1 hi with hi | hi
    · exact Nat.lt_succ_of_lt (h.reach i hi)
    · rw [List.mem_singleton.1 hi]
      exact Nat.lt_succ_self _
  records i t ht := by
    have ht : (s.tables ++ [Tables.empty])[i]? = some t := ht
    rw [List.getElem?_append] at ht
    split at ht
    · exact h.records i t ht
    · next hge =>
      -- Nothing was filed in the new archive.
      rw [h.unopened i (Nat.le_of_not_lt hge), List.mem_singleton.1 (List.mem_of_getElem? ht)]
      exact Tables.records_empty
  unopened i hi := by
    have hi : (s.tables ++ [Tables.empty]).length ≤ i := hi
    rw [List.length_append] at hi
    exact h.unopened i (Nat.le_trans (Nat.le_add_right _ _) hi)

theorem cloned (h : s.Keeps made) (handle : Nat) : (s.cloned handle).Keeps made where
  reach i hi := by
    rcases List.mem_append.1 hi with hi | hi
    · exact h.reach i hi
    · exact h.reach i (List.mem_of_getElem? (Option.mem_toList.1 hi))
  records := h.records
  unopened := h.unopened

theorem filed (h : s.Keeps made) (hi : s.handles[handle]? = some i) (ht : s.tables[i]? = some t)
    {f : Filing} (hfree : ∀ boundTo, t.positions[f.position.encode]? = some boundTo → boundTo = f.root) :
    Keeps { s with tables := s.tables.set i (t.file f.position f.root f.state) }
      fun j => made j ++ if i = j then [f] else [] where
  reach j hj := by
    rw [List.length_set]
    exact h.reach j hj
  records j u hu := by
    have hu : (s.tables.set i _)[j]? = some u := hu
    by_cases hj : i = j
    · subst hj
      rw [List.getElem?_set_self (h.reach i (List.mem_of_getElem? hi))] at hu
      cases hu
      rw [if_pos rfl]
      exact (h.records i t ht).filed hfree
    · rw [List.getElem?_set_ne hj] at hu
      rw [if_neg hj, List.append_nil]
      exact h.records j u hu
  unopened j hj := by
    rw [List.length_set] at hj
    have hlt := h.reach i (List.mem_of_getElem? hi)
    rw [if_neg (by omega), List.append_nil]
    exact h.unopened j hj

/-- Whatever a call does, the archives hold what was filed in them. -/
theorem next (h : s.Keeps made) (call : Call) :
    (call.next s).Keeps fun i => made i ++ call.made i s := by
  cases call with
  | opened => simpa [Call.made, Call.next] using h.opened
  | cloned handle => simpa [Call.made, Call.next] using h.cloned handle
  | put handle f =>
    cases hi : s.handles[handle]? with
    | none =>
      have hput : put handle f s = .error (.broke .indexOutOfBounds) s := by
        unfold put
        rw [hi]
      simpa [Call.next, Call.made, hi, Operation.after_eq_of_error hput] using h
    | some i =>
      obtain ⟨t, ht, -⟩ := h.exists_tables hi
      rcases put_cases_of_reach hi ht f with ⟨boundTo, -, -, hput⟩ | ⟨hfree, hput⟩
      · simpa [Call.next, Call.made, Operation.after_eq_of_error hput, Operation.outcome_of_error hput] using h
      · simpa [Call.next, Call.made, hi, Operation.after_eq_of_ok hput, Operation.outcome_of_ok hput]
          using h.filed hi ht hfree

theorem play (h : s.Keeps made) (calls : List Call) :
    (play calls s).Keeps fun i => made i ++ Shared.made i calls s := by
  induction calls generalizing s made with
  | nil => simpa [Shared.made, Shared.play] using h
  | cons call calls ih => simpa [Shared.made, Shared.play] using ih (h.next call)

end Keeps

/-! ## 3. Any calls -/

/-- Through a handle, an archive is a map that is written once by what was filed in it: each position has the
root of its first filing, each root the state of its first, and a filing is refused only where it would bind
a position to another root. -/
structure WriteOnce (s : Shared) (handle : Nat) (made : List Filing) : Prop where
  rootAt : ∀ p : Position, s.ask? handle (·.rootAt p) =
    some (match made.find? fun m => m.position = p with
      | some m => .ok m.root
      | none => .error (.notFound (.position p)))
  get : ∀ root : Root, s.ask? handle (·.get root) =
    some (match made.find? fun m => m.root = root with
      | some m => .ok m.state
      | none => .error (.notFound (.state root)))
  contains : ∀ root : Root, s.ask? handle (·.contains root) = some (made.any fun m => m.root = root)
  size : s.ask? handle Tables.size = some (made.map Filing.root).toFinset.card
  taken : ∀ f : Filing, (∀ m ∈ made, m.position = f.position → m.root = f.root) →
    (put handle f).outcome s = .ok ()
  refused : ∀ f : Filing, ∀ m ∈ made, m.position = f.position → m.root ≠ f.root →
    put handle f s = .error (.refused (.conflict (.position f.position m.root))) s
  apart : ∀ f g : Filing, f.position ≠ g.position →
    ((put handle g).after s).ask? handle (·.rootAt f.position) = s.ask? handle (·.rootAt f.position) ∧
      (put handle f).outcome ((put handle g).after s) = (put handle f).outcome s

theorem ask?_of_reach {α : Type} (hi : s.handles[handle]? = some i) (ht : s.tables[i]? = some t)
    (query : Tables → α) : s.ask? handle query = some (query t) := by
  unfold ask? reached?
  rw [hi, Option.bind_some, ht, Option.map_some]

-- What is bound to a position decides what a filing there comes to.
theorem outcome_put_congr {s' : Shared} {i' : Nat} {t' : Tables} (hi : s.handles[handle]? = some i)
    (ht : s.tables[i]? = some t) (hi' : s'.handles[handle]? = some i') (ht' : s'.tables[i']? = some t')
    {f : Filing} (hsame : t'.positions[f.position.encode]? = t.positions[f.position.encode]?) :
    (put handle f).outcome s' = (put handle f).outcome s := by
  rcases put_cases_of_reach hi ht f with ⟨boundTo, hbound, hne, hput⟩ | ⟨hfree, hput⟩
  · rcases put_cases_of_reach hi' ht' f with ⟨boundTo', hbound', -, hput'⟩ | ⟨hfree', -⟩
    · rw [hsame, hbound] at hbound'
      cases hbound'
      rw [Operation.outcome_of_error hput, Operation.outcome_of_error hput']
    · exact absurd (hfree' boundTo (hsame.trans hbound)) hne
  · rcases put_cases_of_reach hi' ht' f with ⟨boundTo', hbound', hne', -⟩ | ⟨-, hput'⟩
    · exact absurd (hfree boundTo' (hsame.symm.trans hbound')) hne'
    · rw [Operation.outcome_of_ok hput, Operation.outcome_of_ok hput']

/-- Filing at one position changes nothing about another. -/
theorem apart_of_reach (hi : s.handles[handle]? = some i) (ht : s.tables[i]? = some t) {f g : Filing}
    (hne : f.position ≠ g.position) :
    ((put handle g).after s).ask? handle (·.rootAt f.position) = s.ask? handle (·.rootAt f.position) ∧
      (put handle f).outcome ((put handle g).after s) = (put handle f).outcome s := by
  rcases put_cases_of_reach hi ht g with ⟨boundTo, -, -, hput⟩ | ⟨-, hput⟩
  · rw [Operation.after_eq_of_error hput]
    exact ⟨rfl, rfl⟩
  · have hi' : ((put handle g).after s).handles[handle]? = some i := by
      rw [Operation.after_eq_of_ok hput]
      exact hi
    have ht' : ((put handle g).after s).tables[i]? = some (t.file g.position g.root g.state) := by
      rw [Operation.after_eq_of_ok hput]
      exact List.getElem?_set_self (List.getElem?_eq_some_iff.1 ht).1
    have hsame : (t.file g.position g.root g.state).positions[f.position.encode]? =
        t.positions[f.position.encode]? := by
      rw [Tables.getElem?_positions_file, if_neg hne.symm]
    refine ⟨?_, outcome_put_congr hi ht hi' ht' hsame⟩
    rw [ask?_of_reach hi ht, ask?_of_reach hi' ht', Tables.rootAt, Tables.rootAt, hsame]

theorem Keeps.writeOnce (h : s.Keeps made) (hi : s.handles[handle]? = some i) :
    s.WriteOnce handle (made i) := by
  obtain ⟨t, ht, hrecords⟩ := h.exists_tables hi
  refine ⟨fun p => ?_, fun root => ?_, fun root => ?_, ?_, fun f hagree => ?_, fun f m hm hp hroot => ?_,
    fun f g => apart_of_reach hi ht⟩
  · rw [ask?_of_reach hi ht, Tables.rootAt, hrecords.positions]
    cases (made i).find? fun m => m.position = p <;> rfl
  · rw [ask?_of_reach hi ht, Tables.get, hrecords.states]
    cases (made i).find? fun m => m.root = root <;> rfl
  · rw [ask?_of_reach hi ht]
    refine congrArg some (Bool.eq_iff_iff.2 ?_)
    rw [Tables.contains, Std.ExtTreeMap.contains_iff_mem, hrecords.mem_states_iff, List.any_eq_true,
      List.mem_map]
    simp only [decide_eq_true_eq]
  · rw [ask?_of_reach hi ht]
    exact congrArg some hrecords.size
  · rcases put_cases_of_reach hi ht f with ⟨boundTo, hbound, hne, -⟩ | ⟨-, hput⟩
    · rw [hrecords.positions] at hbound
      obtain ⟨m, hm, rfl⟩ := Option.map_eq_some_iff.1 hbound
      have hp := List.find?_some hm
      exact absurd (hagree m (List.mem_of_find?_eq_some hm) (of_decide_eq_true hp)) hne
    · exact Operation.outcome_of_ok hput
  · have hbound := hrecords.agree m hm
    rw [hp] at hbound
    rcases put_cases_of_reach hi ht f with ⟨boundTo, hbound', -, hput⟩ | ⟨hfree, -⟩
    · rw [hbound] at hbound'
      cases hbound'
      exact hput
    · exact absurd (hfree m.root hbound) hroot

/-- After any calls, through any handles and clones, an archive is a map that was written once. -/
theorem writeOnce_of_run {calls : List Call} (hreach : (play calls .empty).handles[handle]? = some i) :
    (play calls .empty).WriteOnce handle (Shared.made i calls .empty) := by
  have hkeeps := keeps_empty.play calls
  simpa using hkeeps.writeOnce hreach

-- Two handles of one archive bind one position to different roots, and the first of them has it.
def rivalCalls : List Call :=
  [.opened, .cloned 0, .put 0 ⟨⟨1, .zero⟩, .zero, default⟩, .put 1 ⟨⟨1, .zero⟩, .filled 1, default⟩]

theorem writeOnce_of_run_rival :
    (play rivalCalls .empty).handles[1]? = some 0 ∧
      Shared.made 0 rivalCalls .empty = [⟨⟨1, .zero⟩, .zero, default⟩] ∧
      (play rivalCalls .empty).WriteOnce 1 [⟨⟨1, .zero⟩, .zero, default⟩] := by
  have hreach : (play rivalCalls .empty).handles[1]? = some 0 := by decide +kernel
  have hmade : Shared.made 0 rivalCalls .empty = [⟨⟨1, .zero⟩, .zero, default⟩] := by decide +kernel
  have hwritten := writeOnce_of_run hreach
  rw [hmade] at hwritten
  exact ⟨hreach, hmade, hwritten⟩

end Shared

end Archive

end BeaconHistory
