import BeaconHistory.Archive

/-!
# Archive.Tables — an archive in memory

Two tables, each written once per key: states by root, and roots by the stored form of a position.
-/

namespace BeaconHistory.Archive

structure Tables where
  states : Std.ExtTreeMap Root State
  positions : Std.ExtTreeMap (List UInt8) Root
deriving Inhabited

namespace Tables

def empty : Tables := ⟨∅, ∅⟩

def size (t : Tables) : Nat := t.states.size

-- The tables with a position bound and a state filed, if its root is new.
def file (t : Tables) (position : Position) (root : Root) (state : State) : Tables where
  states := t.states.insertIfNew root state
  positions := t.positions.insert position.encode root

/-- Refuses a position that is bound to another root. -/
def put (position : Position) (root : Root) (state : State) : Operation Error Tables Unit := fun t =>
  match t.positions[position.encode]? with
  | some boundTo =>
    if boundTo = root then .ok () (t.file position root state)
    else .error (.refused (.conflict (.position position boundTo))) t
  | none => .ok () (t.file position root state)

def get (t : Tables) (root : Root) : Except Error State :=
  match t.states[root]? with
  | some state => .ok state
  | none => .error (.notFound (.state root))

def rootAt (t : Tables) (position : Position) : Except Error Root :=
  match t.positions[position.encode]? with
  | some root => .ok root
  | none => .error (.notFound (.position position))

def contains (t : Tables) (root : Root) : Bool := t.states.contains root

instance : Archive Tables where
  put := put
  get := get
  rootAt := rootAt
  contains t root := .ok (t.contains root)

end Tables

end BeaconHistory.Archive
