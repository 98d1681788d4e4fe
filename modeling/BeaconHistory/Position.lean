import BeaconHistory.Bytes
import BeaconHistory.Root

/-!
# Position — a block root at a slot

One place of the chain.  An empty slot carries the root of the latest block before it, so several
consecutive positions may share a root.  Positions are ordered by slot and then by root; their stored
form is the root followed by the slot.  Main statements: the stored form of forty bytes is a
bijection, and a lower slot comes first whatever the roots.
-/

namespace BeaconHistory

structure Position where
  slot : UInt64
  root : Root
deriving DecidableEq, Inhabited

namespace Position

/-! ## Order -/

instance : Ord Position := ⟨compareLex (compareOn slot) (compareOn root)⟩

instance : Std.TransOrd Position :=
  inferInstanceAs (Std.TransCmp (compareLex (compareOn slot) (compareOn root)))

instance : Std.LawfulEqOrd Position where
  eq_of_compare {a b} h := by
    have h : compareLex (compareOn slot) (compareOn root) a b = .eq := h
    simp only [compareLex_eq_eq, compareOn] at h
    cases a; cases b
    simp_all

theorem compare_of_slot_lt {a b : Position} (h : a.slot < b.slot) : compare a b = .lt := by
  have hslot : compare a.slot b.slot = .lt := Std.compare_eq_lt.2 h
  show (compare a.slot b.slot).then (compare a.root b.root) = .lt
  rw [hslot]; rfl

/-! ## Stored form -/

/-- The root, then the slot in eight little-endian bytes. -/
def encode (p : Position) : List UInt8 := p.root.bytes ++ Bytes.ofWord p.slot

/-- Reads a stored form, which has exactly forty bytes. -/
def decode? (bytes : List UInt8) : Option Position :=
  if bytes.length = 40 then
    (Root.ofBytes? (bytes.take 32)).map fun root => ⟨Bytes.toWord (bytes.drop 32), root⟩
  else none

@[simp] theorem length_encode (p : Position) : p.encode.length = 40 := by
  simp [encode, p.root.length_eq]

theorem decode?_encode (p : Position) : decode? p.encode = some p := by
  have htake : p.encode.take 32 = p.root.bytes := by simp [encode, ← p.root.length_eq]
  have hdrop : p.encode.drop 32 = Bytes.ofWord p.slot := by simp [encode, ← p.root.length_eq]
  simp [decode?, htake, hdrop]

theorem encode_of_decode? {bytes : List UInt8} {p : Position} (h : decode? bytes = some p) :
    p.encode = bytes := by
  unfold decode? Root.ofBytes? at h
  split at h
  · next hlen =>
    split at h
    · cases h
      have hdrop : (bytes.drop 32).length = 8 := by simp [hlen]
      simp [encode, Bytes.ofWord_toWord hdrop]
    · simp at h
  · simp at h

instance : ToString Position := ⟨fun p => s!"{p.root}@{p.slot}"⟩

end Position

/-- A finality checkpoint: a block root at the first slot of an epoch. -/
structure Checkpoint where
  epoch : UInt64
  root : Root
deriving DecidableEq, Inhabited

end BeaconHistory
