import BeaconHistory.Hex
import BeaconHistory.Sha256
import Std.Data.ExtTreeMap

/-!
# Root — a commitment of 32 bytes

A root commits to a block or to a state.  It is written as a zero, an x and sixty-four lower-case
digits, and is ordered by its bytes.
-/

namespace BeaconHistory

structure Root where
  bytes : List UInt8
  length_eq : bytes.length = 32
deriving DecidableEq

namespace Root

theorem ext_bytes {a b : Root} (h : a.bytes = b.bytes) : a = b := by
  cases a; cases b; cases h; rfl

def filled (b : UInt8) : Root := ⟨List.replicate 32 b, List.length_replicate⟩

-- The root that stands for a commitment not made yet.
def zero : Root := filled 0

instance : Inhabited Root := ⟨zero⟩

def commit (message : List UInt8) : Root := ⟨Sha256.digest message, Sha256.length_digest message⟩

/-- The root of exactly thirty-two bytes. -/
def ofBytes? (bytes : List UInt8) : Option Root :=
  if h : bytes.length = 32 then some ⟨bytes, h⟩ else none

@[simp] theorem ofBytes?_bytes (r : Root) : ofBytes? r.bytes = some r := by
  simp [ofBytes?, r.length_eq]

/-! ## Order -/

instance : Ord Root := ⟨compareOn bytes⟩

instance : Std.TransOrd Root := inferInstanceAs (Std.TransCmp (compareOn bytes))

instance : Std.LawfulEqOrd Root where
  eq_of_compare h := ext_bytes (Std.LawfulEqOrd.eq_of_compare h)

/-! ## Text -/

def chars (r : Root) : List Char := '0' :: 'x' :: Hex.encode r.bytes

instance : ToString Root := ⟨fun r => String.ofList r.chars⟩

-- Drops a leading zero and x of either case.
def stripMark : List Char → List Char
  | '0' :: 'x' :: rest => rest
  | '0' :: 'X' :: rest => rest
  | text => text

/-- Reads sixty-four digits of either case, with or without the leading mark. -/
def ofChars? (text : List Char) : Option Root := Hex.decode? (stripMark text) >>= ofBytes?

theorem ofChars?_chars (r : Root) : ofChars? r.chars = some r := by
  simp [ofChars?, chars, stripMark, Hex.decode?_encode]

end Root

end BeaconHistory
