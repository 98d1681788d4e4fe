import BeaconHistory.Failure
import BeaconHistory.Frontier.Error
import BeaconHistory.Snapshot

/-!
# Frontier.Sink — what finalized entries are handed to

A sink is offered each newly finalized entry once it is certain, by increasing slot and before the
entry may be pruned.  An entry that it rejects stays, and is offered again by the next finalization.
-/

namespace BeaconHistory.Frontier

class Sink (σ : Type) where
  -- Takes or rejects a newly finalized entry.
  offer : Snapshot → Operation Rejection σ Unit
  -- Is told of an entry that was pruned because it does not build on the finalized chain.
  prune : Snapshot → σ → σ

/-- How far a hand-over went. -/
structure HandOver (σ : Type) where
  accepted : List Snapshot
  -- The entry that was not taken, and why.
  stopped : Option (Snapshot × Failure Rejection)
  sink : σ

/-- Offers entries in order up to the first one that is not taken. -/
def handOver {σ : Type} [Sink σ] : List Snapshot → σ → HandOver σ
  | [], sink => ⟨[], none, sink⟩
  | entry :: rest, sink => match Sink.offer entry sink with
    | .ok _ sink =>
      let later := handOver rest sink
      { later with accepted := entry :: later.accepted }
    | .error failure sink => ⟨[], some (entry, failure), sink⟩

def pruneAll {σ : Type} [Sink σ] (entries : List Snapshot) (sink : σ) : σ :=
  entries.foldl (fun sink entry => Sink.prune entry sink) sink

/-- A sink that writes down the positions of the entries it took and of those pruned, in the order of the
calls.  It may be told to reject the entry of one slot and to break off at another. -/
structure Journal where
  rejectAt : Option UInt64
  breakAt : Option UInt64
  finalized : List Position
  pruned : List Position

namespace Journal

def empty : Journal := ⟨none, none, [], []⟩

def offer (entry : Snapshot) : Operation Rejection Journal Unit := fun j =>
  let slot := entry.summary.slot
  if j.breakAt = some slot then .error (.broke .collaborator) j
  else if j.rejectAt = some slot then .error (.refused (.other s!"rejected slot {slot}")) j
  else .ok () { j with finalized := j.finalized ++ [entry.position] }

def prune (entry : Snapshot) (j : Journal) : Journal :=
  { j with pruned := j.pruned ++ [entry.position] }

instance : Sink Journal := ⟨offer, prune⟩

end Journal

end BeaconHistory.Frontier
