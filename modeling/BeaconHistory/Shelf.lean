import BeaconHistory.Entry

/-!
# Shelf — entries that a reader keeps

Entries are kept under names, each with its memo.  A node of the frontier is one entry however often
it is served, so its duties are remembered by position and shared by all names; the memo of any other
entry belongs to its name, and starts empty when the name is given again.
-/

namespace BeaconHistory

structure Shelf where
  kept : List (String × Entry × Memo)
  shared : Std.ExtTreeMap Position Memo

namespace Shelf

def empty : Shelf := ⟨[], ∅⟩

def keep (name : String) (entry : Entry) (s : Shelf) : Shelf :=
  { s with kept := (name, entry, .empty) :: s.kept.filter (·.1 ≠ name) }

def find? (s : Shelf) (name : String) : Option (Entry × Memo) :=
  (s.kept.find? (·.1 = name)).map (·.2)

@[simp] theorem find?_keep (name : String) (entry : Entry) (s : Shelf) :
    (s.keep name entry).find? name = some (entry, .empty) := by
  simp [keep, find?]

-- The memo of an entry that has its own memo `own` under its name.
def memo (s : Shelf) (own : Memo) : Entry → Memo
  | .node snapshot => (s.shared[snapshot.position]?).getD .empty
  | _ => own

-- Replaces the memo of the entry kept under a name.
def remember (name : String) (memo : Memo) (entry : Entry) (s : Shelf) : Shelf :=
  match entry with
  | .node snapshot => { s with shared := s.shared.insert snapshot.position memo }
  | _ => { s with kept := (name, entry, memo) :: s.kept.filter (·.1 ≠ name) }

variable {α : Type}

-- Uses the entry kept under a name, if there is one, and keeps what has been made for it.
def use? (name : String) (ask : Entry → Operation Query.Error Memo α) (s : Shelf) :
    Option (Outcome Query.Error α × Shelf) :=
  (s.find? name).map fun (entry, own) =>
    match ask entry (s.memo own entry) with
    | .ok a memo => (.ok a, s.remember name memo entry)
    | .error e memo => (.error e, s.remember name memo entry)

def state? (files : Files) (ctx : Context) (name : String) (s : Shelf) :
    Option (Outcome Query.Error State × Shelf) :=
  s.use? name (Entry.state files ctx)

def duties? (files : Files) (ctx : Context) (name : String) (s : Shelf) :
    Option (Outcome Query.Error Duties × Shelf) :=
  s.use? name (Entry.duties files ctx)

end Shelf

end BeaconHistory
