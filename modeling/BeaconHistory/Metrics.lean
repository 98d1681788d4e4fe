/-!
# Metrics — what a chain measures

A batch of measurements: counters that were raised, gauges that were set and values that were
sampled.  A name that was never touched is absent.  Batches are joined with the older one on the
left: counters add up, a later gauge replaces an earlier one, samples follow each other.
Main statement: joining is associative, and the empty batch is its unit.
-/

namespace BeaconHistory

structure Metrics where
  finalizedEntries : Option Nat
  prunedEntries : Option Nat
  rejections : Option Nat
  frontierEntries : Option UInt64
  ledgerHeadSlot : Option UInt64
  advancedSlots : List UInt64
deriving DecidableEq, Repr

namespace Metrics

def empty : Metrics := ⟨none, none, none, none, none, []⟩

-- Adds two counters; a counter raised by zero is present.
def addCounters : Option Nat → Option Nat → Option Nat
  | none, n => n
  | m, none => m
  | some m, some n => some (m + n)

def join (older newer : Metrics) : Metrics where
  finalizedEntries := addCounters older.finalizedEntries newer.finalizedEntries
  prunedEntries := addCounters older.prunedEntries newer.prunedEntries
  rejections := addCounters older.rejections newer.rejections
  frontierEntries := newer.frontierEntries <|> older.frontierEntries
  ledgerHeadSlot := newer.ledgerHeadSlot <|> older.ledgerHeadSlot
  advancedSlots := older.advancedSlots ++ newer.advancedSlots

instance : Append Metrics := ⟨join⟩

@[simp] theorem addCounters_none (n : Option Nat) : addCounters n none = n := by cases n <;> rfl

@[simp] theorem empty_append (m : Metrics) : empty ++ m = m := by
  change join empty m = m
  simp [join, empty, addCounters]

@[simp] theorem append_empty (m : Metrics) : m ++ empty = m := by
  change join m empty = m
  simp [join, empty]

theorem addCounters_assoc (k m n : Option Nat) :
    addCounters (addCounters k m) n = addCounters k (addCounters m n) := by
  cases k <;> cases m <;> cases n <;> simp [addCounters, Nat.add_assoc]

theorem append_assoc (k m n : Metrics) : k ++ m ++ n = k ++ (m ++ n) := by
  change join (join k m) n = join k (join m n)
  simp only [join, addCounters_assoc, List.append_assoc, Metrics.mk.injEq, true_and, and_true]
  constructor
  · cases n.frontierEntries <;> rfl
  · cases n.ledgerHeadSlot <;> rfl

-- Every counter at zero and every gauge set to zero.
def zeroed : Metrics := ⟨some 0, some 0, some 0, some 0, some 0, []⟩

/-! ## Single measurements -/

def finalized (count : Nat) : Metrics := { empty with finalizedEntries := some count }

def pruned (count : Nat) : Metrics := { empty with prunedEntries := some count }

def rejection : Metrics := { empty with rejections := some 1 }

def frontierSize (count : Nat) : Metrics := { empty with frontierEntries := some (UInt64.ofNat count) }

def ledgerHead (slot : UInt64) : Metrics := { empty with ledgerHeadSlot := some slot }

def advanced (slots : Nat) : Metrics := { empty with advancedSlots := [UInt64.ofNat slots] }

/-! ## Names -/

inductive Kind where
  | counter
  | gauge
  | histogram
deriving DecidableEq, Repr

def Kind.name : Kind → String
  | counter => "counter"
  | gauge => "gauge"
  | histogram => "histogram"

inductive Quantity where
  | finalizedEntries
  | prunedEntries
  | rejections
  | frontierEntries
  | ledgerHeadSlot
  | advancedSlots
deriving DecidableEq, Repr

namespace Quantity

-- In the order in which they are described.
def all : List Quantity :=
  [finalizedEntries, prunedEntries, rejections, frontierEntries, ledgerHeadSlot, advancedSlots]

def name : Quantity → String
  | finalizedEntries => "hotcold_finalized_entries_total"
  | prunedEntries => "hotcold_pruned_entries_total"
  | rejections => "hotcold_sink_failures_total"
  | frontierEntries => "hotcold_hot_entries"
  | ledgerHeadSlot => "hotcold_cold_head_slot"
  | advancedSlots => "hotcold_towards_transitions"

def kind : Quantity → Kind
  | finalizedEntries | prunedEntries | rejections => .counter
  | frontierEntries | ledgerHeadSlot => .gauge
  | advancedSlots => .histogram

def unit (_ : Quantity) : String := "count"

def description : Quantity → String
  | finalizedEntries => "Total number of entries handed to the finalization sink"
  | prunedEntries => "Total number of non-finalized entries pruned from the hot chain"
  | rejections => "Total number of entries rejected by the finalization sink"
  | frontierEntries => "Number of entries held by the hot chain"
  | ledgerHeadSlot => "Latest slot ingested by the cold chain"
  | advancedSlots => "Empty-slot transitions performed per towards call"

end Quantity

/-! ## Values as doubles -/

-- Rounds `n` to a multiple of `unit`, a tie going to the even multiple.
def roundTo (unit n : Nat) : Nat :=
  let low := n / unit
  let twice := 2 * (n % unit)
  unit * (if twice < unit then low else if unit < twice then low + 1 else low + low % 2)

-- The value of a word as a double, whose significand has 53 bits.
def asDouble (n : UInt64) : Nat := roundTo (1 <<< (n.toNat.log2 - 52)) n.toNat

inductive Reading where
  | count (total : Nat)
  | value (value : Nat)
  | samples (values : List Nat)
deriving DecidableEq, Repr

-- What was measured of `q`, if anything was; gauges and samples are read as doubles.
def reading? (m : Metrics) : Quantity → Option Reading
  | .finalizedEntries => m.finalizedEntries.map .count
  | .prunedEntries => m.prunedEntries.map .count
  | .rejections => m.rejections.map .count
  | .frontierEntries => m.frontierEntries.map fun n => .value (asDouble n)
  | .ledgerHeadSlot => m.ledgerHeadSlot.map fun n => .value (asDouble n)
  | .advancedSlots =>
    if m.advancedSlots = [] then none else some (.samples (m.advancedSlots.map asDouble))

end Metrics

end BeaconHistory
