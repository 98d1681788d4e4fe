import BeaconHistory.Snapshot

/-!
# Commitment — what is hashed, and what a digest pins down

The digest of this library is no injection, so a statement that rests on it says which byte strings
it assumes to have distinct digests.  Main statements: two values of one root exhibit two strings of
one digest, whatever the lengths of their rings, and among strings of distinct digests a root
therefore determines its header, and the root of a state the whole state.
-/

namespace BeaconHistory

/-- Two strings that the digest does not tell apart. -/
def Collide (x y : List UInt8) : Prop := x ≠ y ∧ Sha256.digest x = Sha256.digest y

theorem Root.commit_eq_iff {x y : List UInt8} :
    Root.commit x = Root.commit y ↔ x = y ∨ Collide x y := by
  rw [commit, commit, Root.mk.injEq]
  constructor
  · intro h
    by_cases heq : x = y
    · exact .inl heq
    · exact .inr ⟨heq, h⟩
  · rintro (rfl | h)
    · rfl
    · exact h.2

/-- No two of the strings share a digest, and none of them has the zero digest. -/
structure CollisionFree (strings : List (List UInt8)) : Prop where
  injective : ∀ x ∈ strings, ∀ y ∈ strings, Root.commit x = Root.commit y → x = y
  nonzero : ∀ x ∈ strings, Root.commit x ≠ .zero

instance (strings : List (List UInt8)) : Decidable (CollisionFree strings) :=
  decidable_of_iff
    ((∀ x ∈ strings, ∀ y ∈ strings, Root.commit x = Root.commit y → x = y) ∧
      ∀ x ∈ strings, Root.commit x ≠ .zero)
    ⟨fun h => ⟨h.1, h.2⟩, fun h => ⟨h.injective, h.nonzero⟩⟩

theorem CollisionFree.mono {strings others : List (List UInt8)} (h : CollisionFree others)
    (hsub : ∀ x ∈ strings, x ∈ others) : CollisionFree strings :=
  ⟨fun x hx y hy => h.injective x (hsub x hx) y (hsub y hy), fun x hx => h.nonzero x (hsub x hx)⟩

theorem CollisionFree.left {strings others : List (List UInt8)}
    (h : CollisionFree (strings ++ others)) : CollisionFree strings :=
  h.mono fun _ hx => List.mem_append_left _ hx

theorem CollisionFree.right {strings others : List (List UInt8)}
    (h : CollisionFree (strings ++ others)) : CollisionFree others :=
  h.mono fun _ hx => List.mem_append_right _ hx

theorem CollisionFree.not_collide {strings : List (List UInt8)} (h : CollisionFree strings)
    {x y : List UInt8} (hx : x ∈ strings) (hy : y ∈ strings) : ¬ Collide x y :=
  fun hcollide => hcollide.1 (h.injective x hx y hy (Root.commit_eq_iff.2 (.inr hcollide)))

/-! ## 1. Headers -/

theorem Header.length_preimage (h : Header) : h.preimage.length = 112 := by
  simp [Header.preimage, Root.length_eq]

-- The fields of a header stand at fixed places of what it commits to.
theorem Header.preimage_injective {a b : Header} (h : a.preimage = b.preimage) : a = b := by
  unfold Header.preimage at h
  obtain ⟨h, hbody⟩ := List.append_inj h (by simp [Root.length_eq])
  obtain ⟨h, hstate⟩ := List.append_inj h (by simp [Root.length_eq])
  obtain ⟨h, hparent⟩ := List.append_inj h (by simp)
  obtain ⟨hslot, hproposer⟩ := List.append_inj h (by simp)
  cases a
  cases b
  simp only [Header.mk.injEq]
  exact ⟨Bytes.ofWord_injective hslot, Bytes.ofWord_injective hproposer,
    Root.ext_bytes hparent, Root.ext_bytes hstate, Root.ext_bytes hbody⟩

theorem Header.root_eq_iff {a b : Header} :
    a.root = b.root ↔ a = b ∨ Collide a.preimage b.preimage := by
  rw [root, root, Root.commit_eq_iff]
  exact or_congr_left ⟨preimage_injective, congrArg preimage⟩

theorem CollisionFree.header_eq {strings : List (List UInt8)} (h : CollisionFree strings)
    {a b : Header} (ha : a.preimage ∈ strings) (hb : b.preimage ∈ strings) (hroot : a.root = b.root) :
    a = b :=
  (Header.root_eq_iff.1 hroot).resolve_right (h.not_collide ha hb)

/-! ## 2. States -/

namespace State

/-- The strings hashed to tell the root of a state and of its latest block. -/
def hashed (s : State) : List (List UInt8) :=
  [s.blockRoots.flatMap Root.bytes, s.stateRoots.flatMap Root.bytes, s.latestHeader.preimage,
    s.preimage, (s.sealedHeader s.root).preimage]

theorem preimage_mem_hashed (s : State) : s.preimage ∈ s.hashed := by simp [hashed]

theorem sealedHeader_mem_hashed (s : State) : (s.sealedHeader s.root).preimage ∈ s.hashed := by
  simp [hashed]

end State

theorem CollisionFree.root_ne_zero {strings : List (List UInt8)} (h : CollisionFree strings)
    {s : State} (hs : ∀ x ∈ s.hashed, x ∈ strings) : s.root ≠ .zero :=
  h.nonzero _ (hs _ s.preimage_mem_hashed)

-- The roots of a ring are all of one length, so a ring is read back from their bytes.
theorem Root.flatMap_bytes_injective {a b : List Root}
    (h : a.flatMap Root.bytes = b.flatMap Root.bytes) : a = b := by
  induction a generalizing b with
  | nil =>
    cases b with
    | nil => rfl
    | cons root b =>
      have hlength := congrArg List.length h
      rw [List.flatMap_nil, List.flatMap_cons, List.length_append, List.length_nil, root.length_eq]
        at hlength
      omega
  | cons root a ih =>
    cases b with
    | nil =>
      have hlength := congrArg List.length h
      rw [List.flatMap_nil, List.flatMap_cons, List.length_append, List.length_nil, root.length_eq]
        at hlength
      omega
    | cons root' b =>
      rw [List.flatMap_cons, List.flatMap_cons] at h
      obtain ⟨hroot, hrest⟩ := List.append_inj h (root.length_eq.trans root'.length_eq.symm)
      rw [Root.ext_bytes hroot, ih hrest]

theorem State.commitRing_eq_iff {a b : List Root} :
    commitRing a = commitRing b ↔ a = b ∨ Collide (a.flatMap Root.bytes) (b.flatMap Root.bytes) := by
  rw [commitRing, commitRing, Root.commit_eq_iff]
  exact or_congr_left ⟨Root.flatMap_bytes_injective, congrArg _⟩

namespace State

/-- The strings hashed to tell the root of a state: its two rings, its header, and at last the
string that holds their three digests. -/
def committed (s : State) : List (List UInt8) :=
  [s.blockRoots.flatMap Root.bytes, s.stateRoots.flatMap Root.bytes, s.latestHeader.preimage,
    s.preimage]

theorem mem_hashed_of_committed {s : State} {x : List UInt8} (hx : x ∈ s.committed) :
    x ∈ s.hashed :=
  List.mem_append_left [(s.sealedHeader s.root).preimage] hx

theorem length_preimage (s : State) : s.preimage.length = 144 := by
  simp [preimage, Root.length_eq]

/-- A state commits to its header and its rings through their own digests. -/
theorem preimage_eq {a b : State} (h : a.preimage = b.preimage) :
    a.slot = b.slot ∧ a.latestHeader.root = b.latestHeader.root ∧
      commitRing a.blockRoots = commitRing b.blockRoots ∧
      commitRing a.stateRoots = commitRing b.stateRoots ∧
      a.randaoMix = b.randaoMix ∧ a.validatorCount = b.validatorCount := by
  unfold preimage at h
  obtain ⟨h, hcount⟩ := List.append_inj' h (by simp)
  obtain ⟨h, hmix⟩ := List.append_inj' h (by simp [Root.length_eq])
  obtain ⟨h, hstates⟩ := List.append_inj' h (by simp [Root.length_eq])
  obtain ⟨h, hblocks⟩ := List.append_inj' h (by simp [Root.length_eq])
  obtain ⟨hslot, hheader⟩ := List.append_inj' h (by simp [Root.length_eq])
  exact ⟨Bytes.ofWord_injective hslot, Root.ext_bytes hheader, Root.ext_bytes hblocks,
    Root.ext_bytes hstates, Root.ext_bytes hmix, Bytes.ofWord_injective hcount⟩

/-- Two states of one root are equal, or strings hashed at the same place for the two collide. -/
theorem eq_or_collide {a b : State} (hroot : a.root = b.root) :
    a = b ∨ ∃ pair ∈ a.committed.zip b.committed, Collide pair.1 pair.2 := by
  by_cases hcollide : ∃ pair ∈ a.committed.zip b.committed, Collide pair.1 pair.2
  · exact .inr hcollide
  -- From the outermost string inwards: what does not collide is equal, and so are the digests in it.
  have hsame {x y : List UInt8} (hmem : (x, y) ∈ a.committed.zip b.committed) : ¬ Collide x y :=
    fun h => hcollide ⟨(x, y), hmem, h⟩
  have hpreimage := (Root.commit_eq_iff.1 hroot).resolve_right (hsame (by simp [committed]))
  obtain ⟨hslot, hheader, hblocks, hstates, hmix, hcount⟩ := preimage_eq hpreimage
  have hheader := (Header.root_eq_iff.1 hheader).resolve_right (hsame (by simp [committed]))
  have hblocks := (commitRing_eq_iff.1 hblocks).resolve_right (hsame (by simp [committed]))
  have hstates := (commitRing_eq_iff.1 hstates).resolve_right (hsame (by simp [committed]))
  left
  cases a
  cases b
  simp only at hslot hheader hblocks hstates hmix hcount
  rw [hslot, hheader, hblocks, hstates, hmix, hcount]

end State

theorem CollisionFree.state_eq {strings : List (List UInt8)} (h : CollisionFree strings) {a b : State}
    (ha : ∀ x ∈ a.hashed, x ∈ strings) (hb : ∀ x ∈ b.hashed, x ∈ strings) (hroot : a.root = b.root) :
    a = b := by
  refine (State.eq_or_collide hroot).resolve_right ?_
  rintro ⟨pair, hpair, hcollide⟩
  obtain ⟨hfst, hsnd⟩ := List.of_mem_zip hpair
  exact h.not_collide (ha _ (State.mem_hashed_of_committed hfst))
    (hb _ (State.mem_hashed_of_committed hsnd)) hcollide

/-! ## 3. One digest for all of them -/

-- No tag tells a header from a state, but their lengths do.
theorem header_root_eq_state_root_iff {h : Header} {s : State} :
    h.root = s.root ↔ Collide h.preimage s.preimage := by
  rw [Header.root, State.root, Root.commit_eq_iff]
  refine or_iff_right fun heq => ?_
  have hlength := congrArg List.length heq
  rw [h.length_preimage, s.length_preimage] at hlength
  omega

/-- Commitments are binding: equal roots, of values that differ or of a header and a state, exhibit
two strings of one digest among those hashed for the roots.  The layout of the fields confuses no two
values, whatever the lengths of the rings. -/
theorem roots_binding :
    (∀ a b : State, a.root = b.root →
      a = b ∨ ∃ pair ∈ a.committed.zip b.committed, Collide pair.1 pair.2) ∧
    (∀ a b : Header, a.root = b.root ↔ a = b ∨ Collide a.preimage b.preimage) ∧
    (∀ a b : Block, a.root = b.root ↔ a = b ∨ Collide a.toHeader.preimage b.toHeader.preimage) ∧
    ∀ (h : Header) (s : State), h.root = s.root ↔ Collide h.preimage s.preimage := by
  refine ⟨fun _ _ => State.eq_or_collide, fun _ _ => Header.root_eq_iff, fun a b => ?_,
    fun _ _ => header_root_eq_state_root_iff⟩
  rw [Block.root, Block.root, Header.root_eq_iff]
  exact or_congr_left ⟨by cases a; cases b; rintro rfl; rfl, congrArg Block.toHeader⟩

end BeaconHistory
