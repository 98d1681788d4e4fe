import BeaconHistory.Entry

/-!
# Span — a range of slots to read

A span of the frontier holds the entries that were canonical when it was opened; a span of the ledger
holds its bounds and reads the ledger when it is asked; two spans joined serve the slots before the
end of the first one from it, and the others from the second.
-/

namespace BeaconHistory

inductive Span where
  | entries (start : UInt64) (snapshots : List Snapshot)
  | filed (start stop : UInt64)
  | joined (first second : Span)

namespace Span

def start : Span → UInt64
  | entries start _ => start
  | filed start _ => start
  | joined first _ => first.start

def stop : Span → UInt64
  | entries start snapshots => start + UInt64.ofNat snapshots.length
  | filed _ stop => stop
  | joined _ second => second.stop

/-- Number of slots; none if the span stops before its start. -/
def length (s : Span) : Nat := s.stop.toNat - s.start.toNat

def isEmpty (s : Span) : Bool := s.length = 0

-- The slot where the second of two joined spans takes over.
def boundary? : Span → Option UInt64
  | joined first _ => some first.stop
  | _ => none

def contains (s : Span) (slot : UInt64) : Bool := s.start ≤ slot && slot < s.stop

def entry (files : Files) (slot : UInt64) : Span → Except Query.Error Entry
  | entries start snapshots =>
    if (entries start snapshots).contains slot then
      match snapshots[(slot - start).toNat]? with
      | some snapshot => .ok (.node snapshot)
      | none => .error (.unknownSlot slot)
    else .error (.outOfRange slot start (entries start snapshots).stop)
  | filed start stop =>
    if (filed start stop).contains slot then files.entryAt slot
    else .error (.outOfRange slot start stop)
  | joined first second =>
    if (joined first second).contains slot then
      if slot < first.stop then first.entry files slot else second.entry files slot
    else .error (.outOfRange slot first.start second.stop)

-- The slots of the span in order.
def slots (s : Span) : List UInt64 := (List.range s.length).map fun i => s.start + UInt64.ofNat i

@[simp] theorem length_slots (s : Span) : s.slots.length = s.length := by simp [slots]

def read (files : Files) (s : Span) : List (Except Query.Error Entry) := s.slots.map fun slot =>
  s.entry files slot

end Span

end BeaconHistory
