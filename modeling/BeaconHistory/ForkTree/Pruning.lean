import BeaconHistory.ForkTree.Basic

/-!
# ForkTree.Pruning — moving the anchor

The anchor moves along a path of the tree.  What does not descend from the new anchor is dropped;
dropped entries that are not on the path were never finalized.
-/

namespace BeaconHistory.ForkTree

/-! ## 1. The path to a position -/

-- Walks from `p` to the anchor, collecting what lies after it in front of `later`.
def pathFrom (t : ForkTree) (target : Position) :
    Nat → Position → List Snapshot → Except Frontier.Error (List Snapshot)
  | n, p, later =>
    if p = t.anchor then .ok later
    else match t.nodes[p]? with
      | none => .error (.unknownEntry p)
      | some node => match n, node.parent with
        | n + 1, some q => t.pathFrom target n q (node.entry :: later)
        | _, _ => .error (.notDescendant target t.anchor)

/-- The snapshots after the anchor up to `target`, by increasing slot. -/
def pathTo (t : ForkTree) (target : Position) : Except Frontier.Error (List Snapshot) :=
  if t.nodes.contains target then
    t.pathFrom target (target.slot.toNat - t.anchor.slot.toNat) target []
  else .error (.unknownEntry target)

-- The positions from `p` on by a count of steps to the parent.
def lineage (t : ForkTree) : Nat → Position → List Position
  | 0, p => [p]
  | n + 1, p => p :: match t.parent? p with
    | some q => t.lineage n q
    | none => []

/-! ## 2. Sorting out -/

/-- The nodes that stay and, latest first, those that are dropped. -/
structure Sorted where
  kept : Std.ExtTreeMap Position Node
  dropped : List (Position × Node)

/-- Sorts one node: the new anchor stays, and so does a later node whose parent stays. -/
def Sorted.add (anchor : Position) (s : Sorted) (item : Position × Node) : Sorted :=
  let (p, node) := item
  if p = anchor then { s with kept := s.kept.insert p { node with parent := none } }
  else if anchor.slot < p.slot ∧ node.parent.any s.kept.contains then
    { s with kept := s.kept.insert p node }
  else { s with dropped := (p, node) :: s.dropped }

/-- Sorts all nodes.  They come by increasing slot, so a parent is sorted before its children. -/
def sortOut (t : ForkTree) (anchor : Position) : Sorted :=
  t.nodes.toList.foldl (Sorted.add anchor) ⟨∅, []⟩

-- Takes a dropped node out of the indexes.
def forget (t : ForkTree) (item : Position × Node) : ForkTree :=
  let (p, node) := item
  { t with
    states := t.states.erase node.entry.summary.stateRoot
    blocks := if t.blocks[p.root]? = some p then t.blocks.erase p.root else t.blocks }

/-- The tree with `anchor` as its anchor, and the dropped entries that were never finalized, by
increasing position. -/
def reanchor (t : ForkTree) (anchor : Position) : ForkTree × List Snapshot :=
  -- The links of the old tree still lead from the new anchor to the old one.
  let finalized := t.lineage (anchor.slot.toNat - t.anchor.slot.toNat) anchor
  let sorted := t.sortOut anchor
  let dropped := sorted.dropped.reverse
  let pruned := dropped.filter fun item => !finalized.contains item.1
  let t := dropped.foldl forget t
  ({ t with
      anchor := anchor
      head := if sorted.kept.contains t.head then t.head else anchor
      nodes := sorted.kept
      blocks := t.blocks.insert anchor.root anchor },
    pruned.map fun item => item.2.entry)

end BeaconHistory.ForkTree
