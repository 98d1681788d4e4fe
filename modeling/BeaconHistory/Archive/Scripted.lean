import BeaconHistory.Archive.Tables

/-!
# Archive.Scripted — an archive that fails on request

Tables behind a script of failures: a write at one slot may break off or be refused, and all reads of
states may be refused.  It serves to see how a chain behaves when its archive fails.
-/

namespace BeaconHistory.Archive

/-- The failures to come. -/
structure Script where
  breakPut : Option UInt64
  refusePut : Option (UInt64 × Error)
  refuseGet : Option Error

def Script.none : Script := ⟨.none, .none, .none⟩

structure Scripted where
  tables : Tables
  script : Script

namespace Scripted

def empty : Scripted := ⟨.empty, .none⟩

-- The refusal scripted for a write at `slot`.
def refusal? (s : Script) (slot : UInt64) : Option Error :=
  s.refusePut.bind fun (failing, error) => if failing = slot then some error else Option.none

def put (position : Position) (root : Root) (state : State) : Operation Error Scripted Unit := fun s =>
  if s.script.breakPut = some position.slot then .error (.broke .collaborator) s
  else match refusal? s.script position.slot with
  | some error => .error (.refused error) s
  | none => match Tables.put position root state s.tables with
    | .ok _ tables => .ok () { s with tables := tables }
    | .error e tables => .error e { s with tables := tables }

def get (s : Scripted) (root : Root) : Except Error State :=
  match s.script.refuseGet with
  | some error => .error error
  | none => s.tables.get root

instance : Archive Scripted where
  put := put
  get := get
  rootAt s position := s.tables.rootAt position
  contains s root := .ok (s.tables.contains root)

end Scripted

end BeaconHistory.Archive
