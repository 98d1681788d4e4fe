import BeaconHistory.Json.Document
import BeaconHistory.Position
import BeaconHistory.State

/-!
# Serial — chain values as JSON

Numbers are plain, roots are their text, and structures are records.  A root is also read from a list
of thirty-two bytes.
-/

namespace BeaconHistory

open Json (Readable Shape record record?)

/-! ## 1. Roots and lists of roots -/

namespace Root

def toJson (r : Root) : Json := .ofChars r.chars

def shape : Shape := .bytes 32

def ofJson? : Json → Option Root
  | .string text => text >>= ofChars?
  | .array items => items.mapM Json.toByte? >>= ofBytes?
  | _ => none

instance : Readable Root := ⟨shape, ofJson?⟩

def listToJson (roots : List Root) : Json := .array (roots.map toJson)

def listOfJson? : Json → Option (List Root)
  | .array items => items.mapM ofJson?
  | _ => none

end Root

/-! ## 2. Positions and checkpoints -/

namespace Position

def toJson (p : Position) : Json := record [("slot", .ofWord p.slot), ("root", p.root.toJson)]

def fields : List (String × Shape) := [("slot", .any), ("root", Root.shape)]

def ofJson? (j : Json) : Option Position := do
  let [some slot, some root] ← record? fields j | none
  return ⟨← slot.toWord?, ← Root.ofJson? root⟩

instance : Readable Position := ⟨.record fields, ofJson?⟩

end Position

namespace Checkpoint

def toJson (c : Checkpoint) : Json := record [("epoch", .ofWord c.epoch), ("root", c.root.toJson)]

def fields : List (String × Shape) := [("epoch", .any), ("root", Root.shape)]

def ofJson? (j : Json) : Option Checkpoint := do
  let [some epoch, some root] ← record? fields j | none
  return ⟨← epoch.toWord?, ← Root.ofJson? root⟩

instance : Readable Checkpoint := ⟨.record fields, ofJson?⟩

end Checkpoint

/-! ## 3. Headers and blocks -/

namespace Header

def toJson (h : Header) : Json := record [
  ("slot", .ofWord h.slot),
  ("proposer_index", .ofWord h.proposerIndex),
  ("parent_root", h.parentRoot.toJson),
  ("state_root", h.stateRoot.toJson),
  ("body_root", h.bodyRoot.toJson)]

def fields : List (String × Shape) := [
  ("slot", .any),
  ("proposer_index", .any),
  ("parent_root", Root.shape),
  ("state_root", Root.shape),
  ("body_root", Root.shape)]

def ofJson? (j : Json) : Option Header := do
  let [some slot, some proposer, some parent, some state, some body] ← record? fields j | none
  return ⟨← slot.toWord?, ← proposer.toWord?, ← Root.ofJson? parent, ← Root.ofJson? state,
    ← Root.ofJson? body⟩

instance : Readable Header := ⟨.record fields, ofJson?⟩

end Header

def Block.toJson (b : Block) : Json := b.toHeader.toJson

def Block.ofJson? (j : Json) : Option Block := (Header.ofJson? j).map fun header => ⟨header⟩

instance : Readable Block := ⟨.record Header.fields, Block.ofJson?⟩

/-! ## 4. States -/

namespace State

def toJson (s : State) : Json := record [
  ("slot", .ofWord s.slot),
  ("latest_block_header", s.latestHeader.toJson),
  ("block_roots", Root.listToJson s.blockRoots),
  ("state_roots", Root.listToJson s.stateRoots),
  ("randao_mix", s.randaoMix.toJson),
  ("validator_count", .ofWord s.validatorCount)]

def fields : List (String × Shape) := [
  ("slot", .any),
  ("latest_block_header", .record Header.fields),
  ("block_roots", .list Root.shape),
  ("state_roots", .list Root.shape),
  ("randao_mix", Root.shape),
  ("validator_count", .any)]

def ofJson? (j : Json) : Option State := do
  let [some slot, some header, some blockRoots, some stateRoots, some randao, some validators] ←
    record? fields j | none
  return {
    slot := ← slot.toWord?
    latestHeader := ← Header.ofJson? header
    blockRoots := ← Root.listOfJson? blockRoots
    stateRoots := ← Root.listOfJson? stateRoots
    randaoMix := ← Root.ofJson? randao
    validatorCount := ← validators.toWord? }

instance : Readable State := ⟨.record fields, ofJson?⟩

end State

/-! ## 5. Specifications -/

namespace Spec

def toJson (s : Spec) : Json := record [
  (Constant.slotsPerEpoch.name, .ofWord s.slotsPerEpoch),
  (Constant.historyLength.name, .ofWord s.historyLength),
  (Constant.secondsPerSlot.name, .ofWord s.secondsPerSlot),
  (Constant.genesisSlot.name, .ofWord s.genesisSlot)]

def fields : List (String × Shape) := [
  (Constant.slotsPerEpoch.name, .any),
  (Constant.historyLength.name, .any),
  (Constant.secondsPerSlot.name, .any),
  (Constant.genesisSlot.name, .any)]

/-- The slot of genesis may be left out, and is then zero. -/
def ofJson? (j : Json) : Option Spec := do
  let [some slots, some history, some seconds, genesis] ← record? fields j | none
  return ⟨← slots.toWord?, ← history.toWord?, ← seconds.toWord?,
    ← (genesis.getD (.ofWord 0)).toWord?⟩

instance : Readable Spec := ⟨.record fields, ofJson?⟩

end Spec

end BeaconHistory
