import BeaconHistory.Proofs.Frontier.Insertion
import BeaconHistory.Proofs.Questions

/-!
# Frontier.Passing — empty slots that are passed on the way

A block that is added, and a checkpoint that is finalized, first pass the empty slots after a block.
Main statements: the slots that are new lie on the run of that block and hold the states that advancing
gives; and they change no answer about blocks, about their ancestry, or about the branch of the head.
-/

namespace BeaconHistory

namespace ForkTree

variable {t u : ForkTree} {taken : Block → Prop} {p : Position} {slot : UInt64}

/-! ## 1. Which slots they are -/

/-- `u` is `t` with some of the empty slots after the node at `p`, up to `slot`. -/
structure Passes (t : ForkTree) (p : Position) (slot : UInt64) (u : ForkTree) : Prop where
  grown : Sprouting t u
  new : ∀ q ∈ u.nodes, q ∉ t.nodes → q.root = p.root ∧ p.slot < q.slot ∧ q.slot ≤ slot

theorem Sound.passes_extendTo (ht : t.Sound) {K : List (List UInt8)} (hK : CollisionFree K)
    (hp : p ∈ t.nodes) (hle : p.slot ≤ slot)
    (hhashed : ((extendTo p slot).after t).HashedBefore K slot.toNat) :
    t.Passes p slot ((extendTo p slot).after t) := by
  obtain ⟨hgrown, hwithin, -⟩ :=
    ht.sprouting_extendTo hK hp (UInt64.le_iff_toNat_le.1 hle) (Nat.le_refl slot.toNat) hhashed
  refine ⟨hgrown, fun q hq hnew => ?_⟩
  obtain ⟨hroot, hslot⟩ := (hwithin q hq).resolve_left hnew
  exact ⟨hroot, hgrown.slot_lt_of_new ht hq hnew hp hroot.symm, UInt64.le_iff_toNat_le.2 hslot⟩

/-- A later slot of the run of `p` is empty, and holds the state of `p` advanced to it. -/
theorem Sprouting.advanced (h : Sprouting t u) (ht : t.Sound) (hderived : t.Derived taken) {start : Node}
    (hstart : t.nodes[p]? = some start) {s : UInt64} {node : Node}
    (hnode : u.nodes[(⟨s, p.root⟩ : Position)]? = some node) (hlater : p.slot < s) :
    node.entry.summary.isEmpty = true ∧ start.entry.state.advanced t.spec s = .ok node.entry.state := by
  have hsteps := h.steps taken
  have hreach := (h.sound ht).state_run (hsteps.derived ht hderived) (h.nodes ht hstart) hnode
    (UInt64.le_of_lt hlater)
  rw [State.atSlot, if_pos (by rw [ht.slot_eq hstart]; exact hlater), Steps.spec hsteps] at hreach
  refine ⟨?_, hreach⟩
  rw [node.entry.summary_eq, Summary.isEmpty_ofState, (ht.aged p start hstart).not_hasBlockAtSlot hreach]
  rfl

/-! ## 2. Where they do not show -/

namespace Sprouting

variable (h : Sprouting t u) (ht : t.Sound)

include h ht

theorem climb_eq (hp : p ∈ t.nodes) (n : Nat) : u.climb n p = t.climb n p :=
  climb_eq_of_subset ht (fun _ _ hnode => h.nodes ht hnode) hp n

theorem canonical?_eq (slot : UInt64) : u.canonical? slot = t.canonical? slot := by
  unfold canonical?
  rw [h.head, h.anchor, h.climb_eq ht ht.head_mem]
  split
  · rfl
  · next hin =>
    cases hclimb : t.climb (t.head.slot.toNat - slot.toNat) t.head with
    | none => rfl
    | some q =>
      exact (h.padded ht).snapshot?_eq (ht.mem_of_descends_node ht.head_mem ⟨_, hclimb⟩)

theorem canonicalBranch_eq : u.canonicalBranch = t.canonicalBranch := by
  have hbranch := ht.branch_canonical.of_subset (fun _ _ hnode => h.nodes ht hnode) h.anchor
  rw [← h.head] at hbranch
  exact ((h.sound ht).branch_canonical).unique hbranch

theorem ancestry_eq (a b : Root) : u.ancestry a b = t.ancestry a b := by
  unfold ForkTree.ancestry
  rw [h.blocks ht]
  cases t.blocks[a]? with
  | none => rfl
  | some p =>
    cases hq : t.blocks[b]? with
    | none => rfl
    | some q =>
      dsimp only
      rw [h.climb_eq ht (ht.mem_of_blocks hq)]

end Sprouting

end ForkTree

namespace Frontier

variable {σ : Type} {f g : Frontier σ}

/-- The head, the canonical entries, the blocks and their ancestry are answered alike. -/
structure AnswersAlike (f g : Frontier σ) : Prop where
  head : g.head = f.head
  bySlot : ∀ slot, Chain.bySlot g slot = Chain.bySlot f slot
  span : Chain.span g = Chain.span f
  byBlockRoot : ∀ root, Chain.byBlockRoot g root = Chain.byBlockRoot f root
  ancestry : ∀ a b, Chain.ancestry g a b = Chain.ancestry f a b

theorem byBlockRoot_of_open (h : f.poisoned = false) (root : Root) :
    Chain.byBlockRoot f root = serve (.unknownBlockRoot root) (f.tree.block? root) :=
  ask_of_open h (.blockRoot root)

theorem AnswersAlike.refl (f : Frontier σ) : f.AnswersAlike f :=
  ⟨rfl, fun _ => rfl, rfl, fun _ => rfl, fun _ _ => rfl⟩

theorem answersAlike_of_sprouting (ht : f.tree.Sound) (hgrown : f.tree.Sprouting g.tree)
    (hopen : f.poisoned = false) (hopen' : g.poisoned = false) : f.AnswersAlike g := by
  have hpadded := hgrown.padded ht
  refine ⟨?_, fun slot => ?_, ?_, fun root => ?_, fun a b => ?_⟩
  · rw [head_of_open hopen, head_of_open hopen', ForkTree.snapshot, ForkTree.snapshot, hgrown.head,
      hpadded.snapshot?_eq ht.head_mem]
  · rw [bySlot_of_open hopen, bySlot_of_open hopen', hgrown.canonical?_eq ht]
  · rw [span_of_open hopen, span_of_open hopen', hgrown.anchor, hgrown.canonicalBranch_eq ht]
  · rw [byBlockRoot_of_open hopen, byBlockRoot_of_open hopen', hpadded.block?_eq]
  · show (if g.poisoned then _ else _) = if f.poisoned then _ else _
    rw [hopen, hopen', hgrown.ancestry_eq ht]

end Frontier

end BeaconHistory
