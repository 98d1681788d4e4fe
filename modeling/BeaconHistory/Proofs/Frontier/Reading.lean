import BeaconHistory.Frontier.Reading

/-!
# Frontier.Reading — what an open frontier answers
-/

namespace BeaconHistory.Frontier

variable {σ : Type} {f : Frontier σ}

theorem opened_of_open (h : f.poisoned = false) : f.opened = .ok f.tree := by
  unfold opened
  rw [h]
  rfl

theorem served_of_open (h : f.poisoned = false) : f.served = .ok f.tree := by
  unfold served
  rw [h]
  rfl

theorem anchor_of_open (h : f.poisoned = false) : f.anchor = .ok f.tree.anchor := by
  unfold anchor
  rw [opened_of_open h]
  rfl

theorem head_of_open (h : f.poisoned = false) :
    f.head = (f.tree.snapshot f.tree.head).map Entry.node := by
  unfold head
  rw [opened_of_open h]
  show (f.tree.snapshot f.tree.head).bind _ = _
  cases f.tree.snapshot f.tree.head <;> rfl

theorem finalized_of_open (h : f.poisoned = false) :
    f.finalized = (f.tree.snapshot f.tree.anchor).map Entry.node := by
  unfold finalized
  rw [opened_of_open h]
  show (f.tree.snapshot f.tree.anchor).bind _ = _
  cases f.tree.snapshot f.tree.anchor <;> rfl

theorem containsBlock_of_open (h : f.poisoned = false) (root : Root) :
    f.containsBlock root = .ok (f.tree.block? root).isSome := by
  unfold containsBlock
  rw [served_of_open h]
  rfl

theorem extendsAnchor_of_open (h : f.poisoned = false) (root : Root) :
    f.extendsAnchor root = .ok (f.tree.blocks.contains root) := by
  unfold extendsAnchor
  rw [served_of_open h]
  rfl

theorem bySlot_of_open (h : f.poisoned = false) (slot : UInt64) :
    Chain.bySlot f slot = serve (.unknownSlot slot) (f.tree.canonical? slot) := by
  show f.served.bind (fun t => serve _ (t.canonical? slot)) = _
  rw [served_of_open h]
  rfl

theorem span_of_open (h : f.poisoned = false) :
    Chain.span f = .ok (.entries (f.tree.anchor.slot + 1) f.tree.canonicalBranch) := by
  show f.served.bind (fun t => .ok (Span.entries (t.anchor.slot + 1) t.canonicalBranch)) = _
  rw [served_of_open h]
  rfl

end BeaconHistory.Frontier
