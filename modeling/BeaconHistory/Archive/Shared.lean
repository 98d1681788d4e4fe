import BeaconHistory.Archive.Tables

/-!
# Archive.Shared — archives in memory behind handles

A handle reaches the tables of one archive, and a clone of a handle reaches the same tables: what is filed
through one of them is read through all of them.
-/

namespace BeaconHistory.Archive

/-- A state to file under a root, and the position to bind to that root. -/
structure Filing where
  position : Position
  root : Root
  state : State
deriving DecidableEq

structure Shared where
  -- What the archives hold.
  tables : List Tables
  -- For each handle, the index of the tables it reaches.
  handles : List Nat

namespace Shared

def empty : Shared := ⟨[], []⟩

/-- Opens a new archive; its first handle is the latest one. -/
def opened (s : Shared) : Shared := ⟨s.tables ++ [.empty], s.handles ++ [s.tables.length]⟩

/-- Clones a handle; the clone is the latest handle. -/
def cloned (handle : Nat) (s : Shared) : Shared :=
  { s with handles := s.handles ++ s.handles[handle]?.toList }

-- The tables that a handle reaches, if there is such a handle.
def reached? (s : Shared) (handle : Nat) : Option Tables := s.handles[handle]?.bind fun i => s.tables[i]?

/-- Files a state through a handle; breaks off if there is no such handle. -/
def put (handle : Nat) (filing : Filing) : Operation Error Shared Unit := fun s =>
  match s.handles[handle]?, s.reached? handle with
  | some i, some t => match Tables.put filing.position filing.root filing.state t with
    | .ok _ t => .ok () { s with tables := s.tables.set i t }
    | .error e t => .error e { s with tables := s.tables.set i t }
  | _, _ => .error (.broke .indexOutOfBounds) s

/-- Asks the archive that a handle reaches. -/
def ask? {α : Type} (handle : Nat) (query : Tables → α) (s : Shared) : Option α :=
  (s.reached? handle).map query

end Shared

end BeaconHistory.Archive
