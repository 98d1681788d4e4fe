import BeaconHistory.Bytes
import BeaconHistory.Root

/-!
# Block — headers and blocks

Only the header of a block matters here; its body is represented by a root.
-/

namespace BeaconHistory

structure Header where
  slot : UInt64
  proposerIndex : UInt64
  parentRoot : Root
  -- Root of the state after the block; zero in a state that has not left the slot of the block.
  stateRoot : Root
  bodyRoot : Root
deriving DecidableEq, Inhabited

namespace Header

def zero : Header := ⟨0, 0, .zero, .zero, .zero⟩

-- The bytes a header commits to: the fields in order, numbers little-endian.
def preimage (h : Header) : List UInt8 :=
  Bytes.ofWord h.slot ++ Bytes.ofWord h.proposerIndex ++
    h.parentRoot.bytes ++ h.stateRoot.bytes ++ h.bodyRoot.bytes

def root (h : Header) : Root := .commit h.preimage

end Header

-- A block, reduced to the fields of its header.
structure Block extends Header
deriving DecidableEq, Inhabited

def Block.root (b : Block) : Root := b.toHeader.root

end BeaconHistory
