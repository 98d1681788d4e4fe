import BeaconHistory.Context
import BeaconHistory.Duties
import BeaconHistory.Snapshot

/-!
# Entry — what a lookup serves

An entry is a node of the frontier, the result of advancing one, or a finalized summary whose state
is filed in an archive.  Its state and its duties are made when they are first asked for, and kept in
a memo; only what takes time checks the context.
-/

namespace BeaconHistory

inductive Entry where
  -- A node of the frontier, one entry however often it is served.
  | node (snapshot : Snapshot)
  -- An entry that no region holds.
  | advanced (snapshot : Snapshot)
  -- A finalized entry, whose state is filed under its root.
  | filed (summary : Summary) (spec : Spec)

/-- What has been made for one entry so far. -/
structure Memo where
  state : Option State
  duties : Option Duties
deriving Inhabited

def Memo.empty : Memo := ⟨none, none⟩

/-- What a chain reads from its finalized region on behalf of entries and ranges. -/
structure Files where
  -- The state filed under a root.
  fetch : Root → Except Archive.Error State
  -- The finalized entry at a slot.
  entryAt : UInt64 → Except Query.Error Entry

namespace Entry

def summary : Entry → Summary
  | node s | advanced s => s.summary
  | filed summary _ => summary

def slot (e : Entry) : UInt64 := e.summary.slot

def position (e : Entry) : Position := e.summary.position

def spec : Entry → Spec
  | node s | advanced s => s.spec
  | filed _ spec => spec

/-- The state of the entry, fetched at most once. -/
def state (files : Files) (ctx : Context) (e : Entry) : Operation Query.Error Memo State :=
  match e with
  | node s | advanced s => return s.state
  | filed summary _ => fun memo =>
    match memo.state with
    | some state => .ok state memo
    | none => match ctx.check with
      | .error interruption => .error interruption memo
      | .ok () => match files.fetch summary.stateRoot with
        | .error e => .error (.refused (.archive e)) memo
        | .ok state => .ok state { memo with state := some state }

-- The state that the duties are computed from. For a state in memory the computation itself checks the
-- context, for a filed one the fetching does.
def stateForDuties (files : Files) (ctx : Context) (e : Entry) : Operation Query.Error Memo State :=
  match e with
  | node s | advanced s => fun memo =>
    match ctx.check with
    | .error interruption => .error interruption memo
    | .ok () => .ok s.state memo
  | filed _ _ => e.state files ctx

/-- The duties of the entry's epoch, computed at most once. -/
def duties (files : Files) (ctx : Context) (e : Entry) : Operation Query.Error Memo Duties := do
  match (← get).duties with
  | some duties => return duties
  | none =>
    let state ← e.stateForDuties files ctx
    let duties ← Operation.ofOutcome fun _ => (Duties.ofState e.spec state).mapReason .transition
    modify fun memo => { memo with duties := some duties }
    return duties

end Entry

end BeaconHistory
