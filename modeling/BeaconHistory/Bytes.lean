/-!
# Bytes — little-endian numbers

A number is written in a fixed count of bytes, the lowest first; reading takes any list of bytes.
Main statements: reading undoes writing up to the width, and writing undoes reading.
-/

namespace BeaconHistory.Bytes

-- The `width` lowest bytes of `n`, the lowest first.
def littleEndian : Nat → Nat → List UInt8
  | 0, _ => []
  | width + 1, n => UInt8.ofNat n :: littleEndian width (n / 256)

-- The number written by `bytes`, the lowest first.
def value : List UInt8 → Nat
  | [] => 0
  | b :: rest => b.toNat + 256 * value rest

/-- How many numbers a width of bytes can write. -/
def capacity : Nat → Nat
  | 0 => 1
  | width + 1 => 256 * capacity width

-- A 64-bit word as eight bytes.
def ofWord (n : UInt64) : List UInt8 := littleEndian 8 n.toNat

-- The word written by the first eight of `bytes`.
def toWord (bytes : List UInt8) : UInt64 := UInt64.ofNat (value (bytes.take 8))

@[simp] theorem length_littleEndian (width n : Nat) : (littleEndian width n).length = width := by
  induction width generalizing n with
  | zero => rfl
  | succ width ih => simp [littleEndian, ih]

@[simp] theorem length_ofWord (n : UInt64) : (ofWord n).length = 8 := length_littleEndian 8 _

theorem value_littleEndian (width n : Nat) : value (littleEndian width n) = n % capacity width := by
  induction width generalizing n with
  | zero => exact (Nat.mod_one n).symm
  | succ width ih =>
    simp only [littleEndian, value, ih, UInt8.toNat_ofNat', capacity]
    exact Nat.mod_mul.symm

theorem littleEndian_value (bytes : List UInt8) :
    littleEndian bytes.length (value bytes) = bytes := by
  induction bytes with
  | nil => rfl
  | cons b rest ih =>
    have hb : b.toNat < 256 := b.toNat_lt
    have hdiv : (b.toNat + 256 * value rest) / 256 = value rest := by omega
    have hlow : UInt8.ofNat (b.toNat + 256 * value rest) = b := by
      apply UInt8.toNat_inj.1
      rw [UInt8.toNat_ofNat']
      omega
    simp [littleEndian, value, hdiv, hlow, ih]

theorem value_lt (bytes : List UInt8) : value bytes < capacity bytes.length := by
  induction bytes with
  | nil => exact Nat.one_pos
  | cons b rest ih =>
    have hb : b.toNat < 256 := b.toNat_lt
    simp only [value, List.length_cons, capacity]
    omega

@[simp] theorem toWord_ofWord (n : UInt64) : toWord (ofWord n) = n := by
  have h : (ofWord n).take 8 = ofWord n := List.take_of_length_le (by simp)
  apply UInt64.toNat_inj.1
  rw [toWord, h, ofWord, value_littleEndian, UInt64.toNat_ofNat']
  have hn : n.toNat < capacity 8 := n.toNat_lt
  rw [Nat.mod_eq_of_lt hn]
  exact Nat.mod_eq_of_lt n.toNat_lt

theorem ofWord_toWord {bytes : List UInt8} (h : bytes.length = 8) : ofWord (toWord bytes) = bytes := by
  have hlt : value bytes < UInt64.size := by
    have := value_lt bytes
    rwa [h] at this
  have htake : bytes.take 8 = bytes := List.take_of_length_le (by omega)
  have hword : (UInt64.ofNat (value bytes)).toNat = value bytes :=
    UInt64.toNat_ofNat'.trans (Nat.mod_eq_of_lt hlt)
  rw [ofWord, toWord, htake, hword, ← h]
  exact littleEndian_value bytes

theorem ofWord_injective {m n : UInt64} (h : ofWord m = ofWord n) : m = n := by
  rw [← toWord_ofWord m, ← toWord_ofWord n, h]

end BeaconHistory.Bytes
