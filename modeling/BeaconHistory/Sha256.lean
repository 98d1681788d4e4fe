/-!
# SHA-256

The digest of a byte string: the string is closed by a one bit, zeros and its length in bits, cut
into blocks of sixteen words, and the blocks are folded into eight chaining words.
-/

namespace BeaconHistory.Sha256

-- The eight words carried from block to block, and from round to round inside one.
structure Chaining where
  a : UInt32
  b : UInt32
  c : UInt32
  d : UInt32
  e : UInt32
  f : UInt32
  g : UInt32
  h : UInt32
deriving DecidableEq, Repr

-- Fractional parts of the square roots of the first eight primes.
def initial : Chaining :=
  ⟨0x6a09e667, 0xbb67ae85, 0x3c6ef372, 0xa54ff53a, 0x510e527f, 0x9b05688c, 0x1f83d9ab, 0x5be0cd19⟩

-- Fractional parts of the cube roots of the first sixty-four primes, one for each round.
def roundConstants : List UInt32 :=
  [0x428a2f98, 0x71374491, 0xb5c0fbcf, 0xe9b5dba5, 0x3956c25b, 0x59f111f1, 0x923f82a4, 0xab1c5ed5,
   0xd807aa98, 0x12835b01, 0x243185be, 0x550c7dc3, 0x72be5d74, 0x80deb1fe, 0x9bdc06a7, 0xc19bf174,
   0xe49b69c1, 0xefbe4786, 0x0fc19dc6, 0x240ca1cc, 0x2de92c6f, 0x4a7484aa, 0x5cb0a9dc, 0x76f988da,
   0x983e5152, 0xa831c66d, 0xb00327c8, 0xbf597fc7, 0xc6e00bf3, 0xd5a79147, 0x06ca6351, 0x14292967,
   0x27b70a85, 0x2e1b2138, 0x4d2c6dfc, 0x53380d13, 0x650a7354, 0x766a0abb, 0x81c2c92e, 0x92722c85,
   0xa2bfe8a1, 0xa81a664b, 0xc24b8b70, 0xc76c51a3, 0xd192e819, 0xd6990624, 0xf40e3585, 0x106aa070,
   0x19a4c116, 0x1e376c08, 0x2748774c, 0x34b0bcb5, 0x391c0cb3, 0x4ed8aa4a, 0x5b9cca4f, 0x682e6ff3,
   0x748f82ee, 0x78a5636f, 0x84c87814, 0x8cc70208, 0x90befffa, 0xa4506ceb, 0xbef9a3f7, 0xc67178f2]

/-! ## 1. Words -/

def rotateRight (x n : UInt32) : UInt32 := (x >>> n) ||| (x <<< (32 - n))

def choose (x y z : UInt32) : UInt32 := (x &&& y) ^^^ (~~~x &&& z)

def majority (x y z : UInt32) : UInt32 := (x &&& y) ^^^ (x &&& z) ^^^ (y &&& z)

def upperSigma0 (x : UInt32) : UInt32 := rotateRight x 2 ^^^ rotateRight x 13 ^^^ rotateRight x 22

def upperSigma1 (x : UInt32) : UInt32 := rotateRight x 6 ^^^ rotateRight x 11 ^^^ rotateRight x 25

def lowerSigma0 (x : UInt32) : UInt32 := rotateRight x 7 ^^^ rotateRight x 18 ^^^ (x >>> 3)

def lowerSigma1 (x : UInt32) : UInt32 := rotateRight x 17 ^^^ rotateRight x 19 ^^^ (x >>> 10)

-- Four bytes as a word, the highest first.
def word (a b c d : UInt8) : UInt32 :=
  (a.toUInt32 <<< 24) ||| (b.toUInt32 <<< 16) ||| (c.toUInt32 <<< 8) ||| d.toUInt32

-- The whole words written by `bytes`.
def words : List UInt8 → List UInt32
  | a :: b :: c :: d :: rest => word a b c d :: words rest
  | _ => []

-- A word as four bytes, the highest first.
def wordBytes (w : UInt32) : List UInt8 :=
  [(w >>> 24).toUInt8, (w >>> 16).toUInt8, (w >>> 8).toUInt8, w.toUInt8]

/-! ## 2. One block -/

-- The scheduled word of a round and the fifteen that follow it.
structure Window where
  w0 : UInt32
  w1 : UInt32
  w2 : UInt32
  w3 : UInt32
  w4 : UInt32
  w5 : UInt32
  w6 : UInt32
  w7 : UInt32
  w8 : UInt32
  w9 : UInt32
  w10 : UInt32
  w11 : UInt32
  w12 : UInt32
  w13 : UInt32
  w14 : UInt32
  w15 : UInt32
deriving DecidableEq, Repr

-- The window of the first round, whose words are those of the block.
def Window.ofBlock : List UInt32 → Window
  | [a, b, c, d, e, f, g, h, i, j, k, l, m, n, o, p] => ⟨a, b, c, d, e, f, g, h, i, j, k, l, m, n, o, p⟩
  | _ => ⟨0, 0, 0, 0, 0, 0, 0, 0, 0, 0, 0, 0, 0, 0, 0, 0⟩

-- The window of the next round.
def Window.next (w : Window) : Window :=
  ⟨w.w1, w.w2, w.w3, w.w4, w.w5, w.w6, w.w7, w.w8, w.w9, w.w10, w.w11, w.w12, w.w13, w.w14, w.w15,
    lowerSigma1 w.w14 + w.w9 + lowerSigma0 w.w1 + w.w0⟩

def round (s : Chaining) (constant scheduled : UInt32) : Chaining :=
  let t := s.h + upperSigma1 s.e + choose s.e s.f s.g + constant + scheduled
  let u := upperSigma0 s.a + majority s.a s.b s.c
  ⟨t + u, s.a, s.b, s.c, s.d + t, s.e, s.f, s.g⟩

-- Runs one round for each constant.
def rounds : List UInt32 → Window → Chaining → Chaining
  | [], _, s => s
  | k :: ks, w, s => rounds ks w.next (round s k w.w0)

-- Folds one block into the chaining words.
def compress (s : Chaining) (block : List UInt32) : Chaining :=
  let t := rounds roundConstants (.ofBlock block) s
  ⟨s.a + t.a, s.b + t.b, s.c + t.c, s.d + t.d, s.e + t.e, s.f + t.f, s.g + t.g, s.h + t.h⟩

/-! ## 3. The message -/

-- Folds a count of blocks of sixty-four bytes.
def absorb : Nat → Chaining → List UInt8 → Chaining
  | 0, s, _ => s
  | n + 1, s, bytes => absorb n (compress s (words (bytes.take 64))) (bytes.drop 64)

-- What closes a message of `length` bytes: a one bit, zeros up to eight bytes before the end of a block,
-- and the length in bits.
def closing (length : Nat) : List UInt8 :=
  let bits := UInt64.ofNat (8 * length)
  0x80 :: List.replicate ((119 - length % 64) % 64) (0 : UInt8) ++
    wordBytes (bits >>> 32).toUInt32 ++ wordBytes bits.toUInt32

-- The chaining words as thirty-two bytes.
def Chaining.bytes (s : Chaining) : List UInt8 :=
  wordBytes s.a ++ wordBytes s.b ++ wordBytes s.c ++ wordBytes s.d ++
    wordBytes s.e ++ wordBytes s.f ++ wordBytes s.g ++ wordBytes s.h

theorem Chaining.length_bytes (s : Chaining) : s.bytes.length = 32 := rfl

/-- The digest of `message`. -/
def digest (message : List UInt8) : List UInt8 :=
  let length := message.length
  -- The mark and the length take nine bytes, which may need one block more than the message.
  (absorb (length / 64 + if length % 64 < 56 then 1 else 2) initial (message ++ closing length)).bytes

theorem length_digest (message : List UInt8) : (digest message).length = 32 :=
  Chaining.length_bytes _

end BeaconHistory.Sha256
