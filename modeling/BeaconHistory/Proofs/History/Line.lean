import BeaconHistory.Proofs.Frontier.Settlement
import BeaconHistory.Proofs.History.Served
import Mathlib.Data.List.Chain

/-!
# History.Line — one line from the start of the ledger to the head

A range over a whole history is put together from the records, which are read when it is asked, and from
the branch of the head, which was collected when it was opened by walking from the head back to the
anchor.  Main statement: it has one entry for every slot up to the head and none for any other, each of
them is what a lookup by slot finds, and each follows the one before it, wherever the anchor stands.
-/

namespace BeaconHistory

-- Each entry of a chronicle comes right after the one before.
theorem Chronicle.isChain {accepted : Block → Prop} {first last : Summary} {log : List Summary}
    (h : Chronicle accepted first log last) : log.IsChain fun q s => s.Follows q := by
  induction h with
  | start => exact List.isChain_singleton _
  | @next log last s h hfollows _ ih =>
    rw [List.isChain_append]
    refine ⟨ih, List.isChain_singleton _, fun q hq s' hs' => ?_⟩
    rw [h.getLast?] at hq
    cases hq
    cases hs'
    exact hfollows

namespace Span

variable {s first second : Span} {files : Files} {slot : UInt64} {e : Entry}

theorem contains_iff : s.contains slot = true ↔ s.start ≤ slot ∧ slot < s.stop := by
  unfold contains
  rw [Bool.and_eq_true, decide_eq_true_iff, decide_eq_true_iff]

theorem bounds_of_entry (h : s.entry files slot = .ok e) : s.start ≤ slot ∧ slot < s.stop := by
  refine contains_iff.1 ?_
  cases s <;> unfold entry at h <;> split at h
  all_goals first | assumption | cases h

-- Two ranges that meet serve together what each of them serves.
theorem entry_joined_iff (hstart : first.start ≤ first.stop) (hmeet : first.stop = second.start)
    (hstop : second.start ≤ second.stop) :
    (joined first second).entry files slot = .ok e ↔
      first.entry files slot = .ok e ∨ second.entry files slot = .ok e := by
  constructor
  · intro h
    unfold entry at h
    split at h
    · split at h
      · exact Or.inl h
      · exact Or.inr h
    · cases h
  · rintro (h | h)
    · obtain ⟨hfrom, hto⟩ := bounds_of_entry h
      have hin : (joined first second).contains slot = true :=
        contains_iff.2 ⟨hfrom, UInt64.lt_of_lt_of_le hto (hmeet ▸ hstop)⟩
      unfold entry
      rw [if_pos hin, if_pos hto]
      exact h
    · obtain ⟨hfrom, hto⟩ := bounds_of_entry h
      rw [← hmeet] at hfrom
      have hin : (joined first second).contains slot = true :=
        contains_iff.2 ⟨UInt64.le_trans hstart hfrom, hto⟩
      unfold entry
      rw [if_pos hin, if_neg (UInt64.not_lt.2 hfrom)]
      exact h

-- Snapshots that stand slot by slot from `start` on are each found at their own slot.
theorem entry_entries_iff {start : UInt64} {snapshots : List Snapshot}
    (hstop : (entries start snapshots).stop.toNat = start.toNat + snapshots.length)
    (hslots : ∀ (i : Nat) (x : Snapshot),
      snapshots[i]? = some x → x.summary.slot.toNat = start.toNat + i) :
    (entries start snapshots).entry files slot = .ok e ↔
      ∃ x ∈ snapshots, x.summary.slot = slot ∧ e = .node x := by
  unfold entry
  constructor
  · intro hentry
    split at hentry
    · next hin =>
      have hle : start ≤ slot := (contains_iff.1 hin).1
      split at hentry
      · next x hx =>
        cases hentry
        have hslot := hslots _ _ hx
        rw [UInt64.toNat_sub_of_le _ _ hle] at hslot
        rw [UInt64.le_iff_toNat_le] at hle
        exact ⟨x, List.mem_of_getElem? hx, UInt64.toNat_inj.1 (by omega), rfl⟩
      · cases hentry
    · cases hentry
  · rintro ⟨x, hx, rfl, rfl⟩
    obtain ⟨i, hi⟩ := List.mem_iff_getElem?.1 hx
    have hslot := hslots i x hi
    have hlt := (List.getElem?_eq_some_iff.1 hi).1
    have hle : start ≤ x.summary.slot := UInt64.le_iff_toNat_le.2 (by omega)
    have hin : x.summary.slot < (entries start snapshots).stop := UInt64.lt_iff_toNat_lt.2 (by omega)
    have hoffset : (x.summary.slot - start).toNat = i := by
      rw [UInt64.toNat_sub_of_le _ _ hle]
      omega
    rw [if_pos (contains_iff.2 ⟨hle, hin⟩), hoffset, hi]

end Span

namespace History

variable {τ : Type} {h : History τ} {taken : Block → Prop} {first : Summary} {e : Entry} {slot : UInt64}

/-! ## 1. Both regions -/

/-- The records, and then the branch of the head. -/
def line (h : History τ) : List Entry :=
  h.ledger.records.toList.map (fun s => .filed s h.ledger.spec) ++
    h.frontier.tree.canonicalBranch.map .node

theorem map_summary_line (h : History τ) :
    h.line.map Entry.summary =
      h.ledger.records.toList ++ h.frontier.tree.canonicalBranch.map Snapshot.summary := by
  unfold line
  rw [List.map_append, List.map_map, List.map_map]
  congr 1
  exact List.map_id _

theorem Sound.exists_head (hs : h.Sound taken first) :
    ∃ head, h.frontier.tree.nodes[h.frontier.tree.head]? = some head ∧
      h.frontier.head = .ok (.node head.entry) ∧
      Chronicle taken first (h.line.map Entry.summary) head.entry.summary := by
  obtain ⟨anchor, hanchor, hlog⟩ := hs.joined
  obtain ⟨node, hnode, hchronicle⟩ :=
    hs.tree.branch_canonical.chronicle hs.tree hs.backed hanchor hlog
  rw [← map_summary_line] at hchronicle
  refine ⟨node, hnode, ?_, hchronicle⟩
  rw [Frontier.head_of_open hs.opened]
  unfold ForkTree.snapshot ForkTree.snapshot?
  rw [hnode]
  rfl

theorem Sound.mem_line_iff (hs : h.Sound taken first) : e ∈ h.line ↔ h.Holds e ∧ h.Canonical e := by
  unfold line
  rw [List.mem_append, List.mem_map, List.mem_map]
  constructor
  · rintro (⟨s, hrecord, rfl⟩ | ⟨x, hx, rfl⟩)
    · exact ⟨.filed hrecord, trivial⟩
    · obtain ⟨hheld, hdown⟩ := (hs.tree.branch_canonical.mem_iff hs.tree).1 hx
      exact ⟨.node hheld, hdown⟩
  · rintro ⟨he, hcanonical⟩
    cases he with
    | filed hrecord => exact Or.inl ⟨_, hrecord, rfl⟩
    | node hx => exact Or.inr ⟨_, (hs.tree.branch_canonical.mem_iff hs.tree).2 ⟨hx, hcanonical⟩, rfl⟩

-- The place of an entry in the line is told by its slot.
theorem Sound.slot_line (hs : h.Sound taken first) {i : Nat} (hi : h.line[i]? = some e) :
    e.slot.toNat = h.ledger.start.toNat + i := by
  obtain ⟨head, -, -, hchronicle⟩ := hs.exists_head
  rw [hs.ledger.start]
  exact hchronicle.slot_getElem? (by rw [List.getElem?_map, hi]; rfl)

theorem Sound.bySlot_iff_mem_line [Archive τ] (hs : h.Sound taken first) :
    Chain.bySlot h slot = .ok e ↔ e ∈ h.line ∧ e.slot = slot := by
  rw [hs.bySlot_eq_ok_iff, hs.mem_line_iff, and_assoc, and_comm (a := e.slot = slot)]

/-! ## 2. The range -/

/-- The range that a history opens: its records, and the branch of its head. -/
def range (h : History τ) : Span :=
  .joined (.filed h.ledger.start h.ledger.next)
    (.entries (h.frontier.tree.anchor.slot + 1) h.frontier.tree.canonicalBranch)

-- The lengths of both parts; the slot after the head has to be one.
structure Measured (h : History τ) : Prop where
  records : h.ledger.next.toNat = h.ledger.start.toNat + h.ledger.records.toList.length
  anchor : h.frontier.tree.anchor.slot + 1 = h.ledger.next
  branch : h.range.stop.toNat = h.ledger.next.toNat + h.frontier.tree.canonicalBranch.length
  head : h.range.stop.toNat = h.frontier.tree.head.slot.toNat + 1

theorem Sound.measured (hs : h.Sound taken first)
    (hword : h.frontier.tree.head.slot.toNat + 1 < 2 ^ 64) : h.Measured := by
  obtain ⟨last, hlog, hlast⟩ := hs.exists_last
  obtain ⟨head, hhead, -, hline⟩ := hs.exists_head
  have hanchorSlot : last.slot = h.frontier.tree.anchor.slot := congrArg Position.slot hlast
  have hheadSlot : head.entry.summary.slot = h.frontier.tree.head.slot :=
    congrArg Position.slot (hs.tree.stored _ _ hhead)
  have hrecords := hlog.slot_last
  have hall := hline.slot_last
  rw [map_summary_line, List.length_append, List.length_map, hheadSlot] at hall
  have hnext := Ledger.next_eq hs.ledger.start hlog
  have hnextNat : h.ledger.next.toNat = last.slot.toNat + 1 := by
    rw [hnext, Slots.toNat_add_one]
    omega
  have hstop : h.range.stop.toNat = h.frontier.tree.head.slot.toNat + 1 := by
    show (h.frontier.tree.anchor.slot + 1 + UInt64.ofNat _).toNat = _
    rw [← hanchorSlot, ← hnext, UInt64.toNat_add, UInt64.toNat_ofNat', hnextNat]
    omega
  have hstart := hs.ledger.start
  refine ⟨?_, ?_, ?_, hstop⟩
  · rw [hnextNat, hstart]
    omega
  · rw [← hanchorSlot, hnext]
  · omega

-- The records of a range are those of the files that it is read from.
theorem Sound.entry_filed_iff (hs : h.Sound taken first) (hm : h.Measured) {files : Files}
    (hfiles : slot < h.ledger.next → files.entryAt slot = h.ledger.bySlot slot) :
    (Span.filed h.ledger.start h.ledger.next).entry files slot = .ok e ↔
      ∃ s ∈ h.ledger.records.toList, s.slot = slot ∧ e = .filed s h.ledger.spec := by
  obtain ⟨last, hlog⟩ := hs.ledger.chronicle
  have hstart := hs.ledger.start
  unfold Span.entry
  by_cases hin : h.ledger.start ≤ slot ∧ slot < h.ledger.next
  · rw [if_pos (Span.contains_iff.2 hin), hfiles hin.2, hs.ledger.bySlot_eq_ok_iff]
  · rw [if_neg (mt Span.contains_iff.1 hin)]
    refine ⟨fun h => (by cases h), ?_⟩
    rintro ⟨s, hrecord, rfl, -⟩
    have hfrom := hlog.first_slot_le hrecord
    have hto := hlog.slot_le_last hrecord
    have hend := hlog.slot_last
    have hnext := hm.records
    rw [← hstart] at hfrom hend
    refine absurd ⟨UInt64.le_iff_toNat_le.2 hfrom, UInt64.lt_iff_toNat_lt.2 ?_⟩ hin
    omega

theorem Sound.slot_canonicalBranch (hs : h.Sound taken first) (hm : h.Measured) {i : Nat} {x : Snapshot}
    (hx : h.frontier.tree.canonicalBranch[i]? = some x) :
    x.summary.slot.toNat = h.ledger.next.toNat + i := by
  have hrecords := hm.records
  have hline : h.line[h.ledger.records.toList.length + i]? = some (.node x) := by
    unfold line
    rw [List.getElem?_append_right (by rw [List.length_map]; omega), List.length_map,
      Nat.add_sub_cancel_left, List.getElem?_map, hx]
    rfl
  have hslot : x.summary.slot.toNat = _ := hs.slot_line hline
  omega

theorem Sound.entry_branch_iff (hs : h.Sound taken first) (hm : h.Measured) (files : Files) :
    (Span.entries (h.frontier.tree.anchor.slot + 1) h.frontier.tree.canonicalBranch).entry files slot =
        .ok e ↔
      ∃ x ∈ h.frontier.tree.canonicalBranch, x.summary.slot = slot ∧ e = .node x := by
  have hanchor := congrArg UInt64.toNat hm.anchor
  refine Span.entry_entries_iff (hm.branch.trans ?_) fun i x hx => ?_
  · rw [hanchor]
  · rw [hanchor]
    exact hs.slot_canonicalBranch hm hx

/-- Whatever files a range is read from, as long as they have its records it serves its line. -/
theorem Sound.entry_range_iff (hs : h.Sound taken first) (hm : h.Measured) {files : Files}
    (hfiles : ∀ slot, slot < h.ledger.next → files.entryAt slot = h.ledger.bySlot slot) :
    h.range.entry files slot = .ok e ↔ e ∈ h.line ∧ e.slot = slot := by
  have hparts : e ∈ h.line ∧ e.slot = slot ↔
      (∃ s ∈ h.ledger.records.toList, s.slot = slot ∧ e = .filed s h.ledger.spec) ∨
        ∃ x ∈ h.frontier.tree.canonicalBranch, x.summary.slot = slot ∧ e = .node x := by
    unfold line
    rw [List.mem_append, List.mem_map, List.mem_map]
    constructor
    · rintro ⟨⟨s, hrecord, rfl⟩ | ⟨x, hx, rfl⟩, rfl⟩
      · exact Or.inl ⟨s, hrecord, rfl, rfl⟩
      · exact Or.inr ⟨x, hx, rfl, rfl⟩
    · rintro (⟨s, hrecord, rfl, rfl⟩ | ⟨x, hx, rfl, rfl⟩)
      · exact ⟨Or.inl ⟨s, hrecord, rfl⟩, rfl⟩
      · exact ⟨Or.inr ⟨x, hx, rfl⟩, rfl⟩
  have hrecords := hm.records
  have hbranch := hm.branch
  rw [hparts, ← hs.entry_filed_iff hm (hfiles slot), ← hs.entry_branch_iff hm files]
  refine Span.entry_joined_iff ?_ hm.anchor.symm ?_
  · exact UInt64.le_iff_toNat_le.2 (by show h.ledger.start.toNat ≤ h.ledger.next.toNat; omega)
  · show h.frontier.tree.anchor.slot + 1 ≤ h.range.stop
    rw [hm.anchor, UInt64.le_iff_toNat_le]
    omega

theorem Measured.length_range (hm : h.Measured) : h.range.length = h.line.length := by
  have hrecords := hm.records
  have hbranch := hm.branch
  unfold line
  rw [List.length_append, List.length_map, List.length_map]
  show h.range.stop.toNat - h.ledger.start.toNat = _
  omega

theorem Sound.read_range (hs : h.Sound taken first) (hm : h.Measured) {files : Files}
    (hfiles : ∀ slot, slot < h.ledger.next → files.entryAt slot = h.ledger.bySlot slot) :
    h.range.read files = h.line.map .ok := by
  unfold Span.read Span.slots
  rw [List.map_map, hm.length_range]
  refine List.ext_getElem (by simp) fun i hi _ => ?_
  rw [List.length_map, List.length_range] at hi
  rw [List.getElem_map, List.getElem_map, List.getElem_range]
  refine (hs.entry_range_iff hm hfiles).2 ⟨List.getElem_mem hi, UInt64.toNat_inj.1 ?_⟩
  have hslot := hs.slot_line (List.getElem?_eq_getElem hi)
  have hword := (h.line[i]).slot.toNat_lt
  show _ = (h.ledger.start + UInt64.ofNat i).toNat
  rw [UInt64.toNat_add, UInt64.toNat_ofNat']
  omega

theorem Sound.slots_range (hs : h.Sound taken first) (hm : h.Measured) :
    h.line.map (fun e => e.slot.toNat) = List.range' h.range.start.toNat h.range.length := by
  rw [hm.length_range]
  refine List.ext_getElem (by simp) fun i hi _ => ?_
  rw [List.length_map] at hi
  rw [List.getElem_map, List.getElem_range', Nat.one_mul]
  exact hs.slot_line (List.getElem?_eq_getElem hi)

-- The slots of a chronicle are those from its first entry to its last.
theorem Sound.exists_mem_line_iff (hs : h.Sound taken first) {last : Summary}
    (hchronicle : Chronicle taken first (h.line.map Entry.summary) last) :
    (∃ e ∈ h.line, e.slot = slot) ↔ h.ledger.start ≤ slot ∧ slot ≤ last.slot := by
  rw [hs.ledger.start, UInt64.le_iff_toNat_le, UInt64.le_iff_toNat_le]
  constructor
  · rintro ⟨e, he, rfl⟩
    have hmem := List.mem_map_of_mem (f := Entry.summary) he
    exact ⟨hchronicle.first_slot_le hmem, hchronicle.slot_le_last hmem⟩
  · rintro ⟨hfrom, hto⟩
    obtain ⟨s, hmem, hslot⟩ := hchronicle.exists_at_slot hfrom hto
    obtain ⟨e, he, rfl⟩ := List.mem_map.1 hmem
    exact ⟨e, he, hslot⟩

/-! ## 3. Runs -/

/-- `line` is what `span` reads of `h`, from the start of the ledger up to `head`. -/
structure Spans [Archive τ] (h : History τ) (head : Entry) (span : Span) (line : List Entry) : Prop where
  start : h.ledger.first = .ok span.start
  stop : span.stop.toNat = head.slot.toNat + 1
  read : span.read (Chain.files h) = line.map .ok
  -- The slots of the range, one after the other.
  slots : line.map (fun e => e.slot.toNat) = List.range' span.start.toNat span.length
  linked : line.IsChain fun q e => e.summary.Follows q.summary
  -- Slot by slot, the range has what a lookup finds.
  entry : ∀ (slot : UInt64) (e : Entry),
    span.entry (Chain.files h) slot = .ok e ↔ Chain.bySlot h slot = .ok e
  slot : ∀ (slot : UInt64) (e : Entry), Chain.bySlot h slot = .ok e → e.slot = slot
  covers : ∀ slot : UInt64, (∃ e, Chain.bySlot h slot = .ok e) ↔ span.start ≤ slot ∧ slot ≤ head.slot

theorem Sound.spans [Archive τ] (hs : h.Sound taken first) {head : ForkTree.Node}
    (hhead : h.frontier.tree.nodes[h.frontier.tree.head]? = some head)
    (hword : head.entry.summary.slot.toNat + 1 < 2 ^ 64)
    (hchronicle : Chronicle taken first (h.line.map Entry.summary) head.entry.summary) :
    h.Spans (.node head.entry) h.range h.line := by
  have hheadSlot : head.entry.summary.slot = h.frontier.tree.head.slot :=
    congrArg Position.slot (hs.tree.stored _ _ hhead)
  rw [hheadSlot] at hword
  have hm := hs.measured hword
  have hfiles : ∀ slot, slot < h.ledger.next → (Chain.files h).entryAt slot = h.ledger.bySlot slot :=
    fun _ _ => rfl
  refine ⟨?_, ?_, hs.read_range hm hfiles, hs.slots_range hm, ?_, fun slot e => ?_,
    fun slot e he => (hs.bySlot_iff_mem_line.1 he).2, fun slot => ?_⟩
  · unfold Ledger.first
    rw [Ledger.opened_of_open hs.ledger.opened]
    rfl
  · rw [hm.head, ← hheadSlot]
    rfl
  · exact List.isChain_map _ |>.1 hchronicle.isChain
  · rw [hs.entry_range_iff hm hfiles, hs.bySlot_iff_mem_line]
  · simp only [hs.bySlot_iff_mem_line]
    exact hs.exists_mem_line_iff hchronicle

/-- After any run of calls on a history whose archive may refuse but does not break off, the range that
is opened has one entry for every slot from the start of the ledger to the head, what a lookup by slot
finds there, and a lookup finds nothing at any other slot.  Each entry is empty and carries the block of
the one before it, or is a block that was built on that, also where the frontier takes over. -/
theorem spans_of_run [Archive τ] (hsteady : Archive.Steady τ) {anchor : Snapshot} {specs : Spec → Prop}
    (hanchor : anchor.state.Reached specs) {spec : Spec} {archive : τ}
    (hstart : start anchor spec archive = .ok h) (calls : List Call)
    (hK : CollisionFree (hashed calls h)) :
    ∃ head, (play calls h).frontier.head = .ok head ∧
      (head.slot.toNat + 1 < 2 ^ 64 →
        ∃ span line, Chain.span (play calls h) = .ok span ∧ (play calls h).Spans head span line) := by
  have hs := sound_of_start hsteady hanchor hstart calls hK
  obtain ⟨head, hnode, hhead, hchronicle⟩ := hs.exists_head
  exact ⟨_, hhead, fun hword => ⟨_, _, hs.span_eq, hs.spans hnode hword hchronicle⟩⟩

theorem spans_of_run_tiny :
    CollisionFree (hashed tinyHeaded tinyHistory) ∧
      ∃ head, (play tinyHeaded tinyHistory).frontier.head = .ok head ∧ head.slot.toNat + 1 < 2 ^ 64 ∧
        ∃ span line, Chain.span (play tinyHeaded tinyHistory) = .ok span ∧
          (play tinyHeaded tinyHistory).Spans head span line := by
  have hs :=
    sound_of_start Ledger.tables_steady Frontier.reached_tiny start_tiny tinyHeaded collisionFree_headed
  obtain ⟨node, hnode, hnodeHead, -⟩ := hs.exists_head
  obtain ⟨head, hhead, hspans⟩ :=
    spans_of_run Ledger.tables_steady Frontier.reached_tiny start_tiny tinyHeaded collisionFree_headed
  cases Except.ok.inj (hhead.symm.trans hnodeHead)
  have hword : (Entry.node node.entry).slot.toNat + 1 < 2 ^ 64 := by
    have hslot := congrArg Position.slot ((hs.tree.stored _ _ hnode).trans ends_headed.1)
    rw [show (Entry.node node.entry).slot = 1 from hslot]
    decide
  exact ⟨collisionFree_headed, _, hhead, hword, hspans hword⟩

end History

end BeaconHistory
