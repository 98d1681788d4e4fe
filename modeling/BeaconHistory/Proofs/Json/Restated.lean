import BeaconHistory.Proofs.Json.Reading
import Mathlib.Data.List.Forall2

/-!
# Json.Restated — records in another order, among other fields

An object says the same with its fields in any order and among others.  Main statements: of a record that is
restated every field is found, and the documents of it are read where those of its values are.
-/

namespace BeaconHistory.Json

variable {v v' : Json} {fields : List (Text × Json)} {name : String}

/-! ## 1. Restating -/

/-- A value with the fields of its objects in any order and among others, whose names are texts and not those
of the object. -/
inductive RestatedAs : Json → Json → Prop where
  | same (v : Json) : RestatedAs v v
  | object {fields restated others all : List (Text × Json)}
      (hnames : restated.map Prod.fst = fields.map Prod.fst)
      (hvalues : List.Forall₂ RestatedAs (fields.map Prod.snd) (restated.map Prod.snd))
      (hothers : ∀ other ∈ others, other.1.isSome = true ∧ other.1 ∉ fields.map Prod.fst)
      (hall : all.Perm (restated ++ others)) : RestatedAs (.object fields) (.object all)

theorem RestatedAs.eq_of_leaf (h : RestatedAs v v') (hleaf : v.IsLeaf) : v' = v := by
  cases h with
  | same => rfl
  | object => cases hleaf

theorem RestatedAs.eq_of_array {items : List Json} (h : RestatedAs (.array items) v) : v = .array items := by
  cases h
  rfl

/-- `all` has the fields of a record, restated, and others. -/
structure Restates (known : List (String × Json)) (restated others all : List (Text × Json)) : Prop where
  values : List.Forall₂ (fun k f => f.1 = some k.1.toList ∧ RestatedAs k.2 f.2) known restated
  fresh : ∀ other ∈ others, other.1.isSome = true ∧ ∀ k ∈ known, other.1 ≠ some k.1.toList
  perm : all.Perm (restated ++ others)

theorem RestatedAs.exists_restates {known : List (String × Json)} (h : RestatedAs (record known) v) :
    ∃ restated others all, v = .object all ∧ Restates known restated others all := by
  unfold record at h
  cases h with
  | same =>
    refine ⟨known.map fun k => (some k.1.toList, k.2), [], _, rfl, ?_, fun _ h => (by cases h), ?_⟩
    · rw [List.forall₂_map_right_iff]
      exact List.forall₂_same.2 fun k _ => ⟨rfl, .same k.2⟩
    · rw [List.append_nil]
  | @object _ restated others all hnames hvalues hothers hall =>
    rw [List.map_map] at hnames hvalues hothers
    refine ⟨restated, others, all, rfl, ?_, fun other hother => ?_, hall⟩
    · have hkeys : List.Forall₂ (fun k f => f.1 = some k.1.toList) known restated := by
        rw [← List.forall₂_eq_eq_eq, List.forall₂_map_left_iff, List.forall₂_map_right_iff] at hnames
        exact hnames.flip
      rw [List.forall₂_map_left_iff, List.forall₂_map_right_iff] at hvalues
      exact List.forall₂_iff_zip.2 ⟨hkeys.length_eq, fun hmem =>
        ⟨(List.forall₂_iff_zip.1 hkeys).2 hmem, (List.forall₂_iff_zip.1 hvalues).2 hmem⟩⟩
    · obtain ⟨hname, hfresh⟩ := hothers other hother
      refine ⟨hname, fun k hk heq => hfresh ?_⟩
      rw [heq]
      exact List.mem_map_of_mem hk

/-! ## 2. The fields of a record -/

theorem named_cons_self (v : Json) (name : String) (fields : List (Text × Json)) :
    named ((some name.toList, v) :: fields) name = v :: named fields name :=
  List.filterMap_cons_some (if_pos rfl)

theorem named_cons_of_ne {f : Text × Json} (h : f.1 ≠ some name.toList) (fields : List (Text × Json)) :
    named (f :: fields) name = named fields name :=
  List.filterMap_cons_none (if_neg h)

theorem named_eq_nil (h : ∀ f ∈ fields, f.1 ≠ some name.toList) : named fields name = [] :=
  List.filterMap_eq_nil_iff.2 fun f hf => if_neg (h f hf)

theorem text_ne {a b : String} (h : a ≠ b) : some a.toList ≠ some b.toList :=
  fun heq => h (String.toList_inj.1 (Option.some.inj heq))

variable {known : List (String × Json)} {restated others all : List (Text × Json)}

theorem exists_of_mem_right {α β : Type} {R : α → β → Prop} {xs : List α} {ys : List β} {y : β}
    (h : List.Forall₂ R xs ys) (hy : y ∈ ys) : ∃ x ∈ xs, R x y := by
  induction h with
  | nil => cases hy
  | @cons x _ _ _ hfirst _ ih =>
    rcases List.mem_cons.1 hy with rfl | hy
    · exact ⟨x, List.mem_cons_self, hfirst⟩
    · obtain ⟨x, hx, hR⟩ := ih hy
      exact ⟨x, List.mem_cons_of_mem _ hx, hR⟩

theorem exists_named_restated
    (h : List.Forall₂ (fun k f => f.1 = some k.1.toList ∧ RestatedAs k.2 f.2) known restated)
    (hnodup : (known.map Prod.fst).Nodup) {k : String × Json} (hk : k ∈ known) :
    ∃ v, RestatedAs k.2 v ∧ named restated k.1 = [v] := by
  induction h with
  | nil => cases hk
  | @cons first f known restated hfirst hrest ih =>
    obtain ⟨name, v⟩ := f
    obtain ⟨rfl, hv⟩ := hfirst
    rw [List.map_cons, List.nodup_cons] at hnodup
    obtain ⟨hnew, hnodup⟩ := hnodup
    have hne {later : String × Json} (hlater : later ∈ known) : some first.1.toList ≠ some later.1.toList :=
      text_ne fun heq => hnew (List.mem_map.2 ⟨later, hlater, heq.symm⟩)
    rcases List.mem_cons.1 hk with rfl | hk
    · refine ⟨v, hv, ?_⟩
      rw [named_cons_self, named_eq_nil]
      intro f hf heq
      obtain ⟨later, hlater, hname, -⟩ := exists_of_mem_right hrest hf
      exact hne hlater (heq.symm.trans hname)
    · obtain ⟨w, hw, hnamed⟩ := ih hnodup hk
      exact ⟨w, hw, (named_cons_of_ne (hne hk) restated).trans hnamed⟩

-- The other fields have none of its names.
theorem Restates.exists_named (h : Restates known restated others all) (hnodup : (known.map Prod.fst).Nodup)
    {k : String × Json} (hk : k ∈ known) : ∃ v, RestatedAs k.2 v ∧ named all k.1 = [v] := by
  obtain ⟨v, hv, hnamed⟩ := exists_named_restated h.values hnodup hk
  refine ⟨v, hv, ?_⟩
  have hperm : (named all k.1).Perm (named restated k.1 ++ named others k.1) := by
    rw [named, named, named, ← List.filterMap_append]
    exact h.perm.filterMap _
  rw [hnamed, named_eq_nil fun other hother => (h.fresh other hother).2 k hk, List.append_nil] at hperm
  exact List.perm_singleton.1 hperm

theorem Restates.names_isSome (h : Restates known restated others all) : all.all (·.1.isSome) = true := by
  rw [List.all_eq_true]
  intro f hf
  rcases List.mem_append.1 (h.perm.mem_iff.1 hf) with hf | hf
  · obtain ⟨k, -, hname, -⟩ := exists_of_mem_right h.values hf
    rw [hname]
    rfl
  · exact (h.fresh f hf).1

/-! ## 3. Reading what is restated -/

variable {wanted : List (String × Shape)}

/-- Wherever `shape` is wanted, `v` is read however it is restated and spelled. -/
def Fits (shape : Shape) (v : Json) : Prop :=
  ∀ ⦃v' : Json⦄, RestatedAs v v' → Reads shape v'

theorem fits_leaf (hleaf : v.IsLeaf) (shape : Shape) : Fits shape v := by
  intro v' h
  rw [h.eq_of_leaf hleaf]
  exact reads_leaf hleaf shape

theorem fits_array {shape : Shape} (hshape : shape.Even) {items : List Json} (hitems : ∀ v ∈ items, v.IsLeaf) :
    Fits shape (.array items) := by
  intro v' h
  rw [h.eq_of_array]
  exact reads_array hshape fun v hv => reads_leaf (hitems v hv) shape.item

/-- The fields `wanted` of a record are those in `known`, each of the shape that is wanted. -/
structure Described (wanted : List (String × Shape)) (known : List (String × Json)) : Prop where
  fields : List.Forall₂ (fun w k => w.1 = k.1 ∧ Fits w.2 k.2) wanted known
  nodup : (wanted.map Prod.fst).Nodup

theorem Described.names_eq (h : Described wanted known) : wanted.map Prod.fst = known.map Prod.fst := by
  rw [← List.forall₂_eq_eq_eq, List.forall₂_map_left_iff, List.forall₂_map_right_iff]
  exact h.fields.imp fun _ _ hwk => hwk.1

/-- Every field of a restated record is found. -/
theorem Described.exists_record? (h : Described wanted known) (hrestated : RestatedAs (record known) v) :
    ∃ values, List.Forall₂ RestatedAs (known.map Prod.snd) values ∧
      record? wanted v = some (values.map some) := by
  obtain ⟨restated, others, all, rfl, hall⟩ := hrestated.exists_restates
  have hnodup := h.names_eq ▸ h.nodup
  have hfound (part : List (String × Json)) (hpart : ∀ k ∈ part, k ∈ known) :
      ∃ values, List.Forall₂ RestatedAs (part.map Prod.snd) values ∧
        (part.map Prod.fst).mapM (fun name => atMostOne? (named all name)) = some (values.map some) := by
    induction part with
    | nil => exact ⟨[], .nil, rfl⟩
    | cons k part ih =>
      obtain ⟨hk, hpart⟩ := List.forall_mem_cons.1 hpart
      obtain ⟨v, hv, hnamed⟩ := hall.exists_named hnodup hk
      obtain ⟨values, hvalues, hread⟩ := ih hpart
      refine ⟨v :: values, .cons hv hvalues, ?_⟩
      rw [List.map_cons, List.mapM_cons, hnamed, hread]
      rfl
  obtain ⟨values, hvalues, hread⟩ := hfound known fun _ hk => hk
  refine ⟨values, hvalues, ?_⟩
  rw [← h.names_eq, List.mapM_map] at hread
  rw [record?, if_pos hall.names_isSome]
  exact hread

theorem field_of_mem (hnodup : (wanted.map Prod.fst).Nodup) {w : String × Shape} (hw : w ∈ wanted) :
    (Shape.record wanted).field (some w.1.toList) = w.2 := by
  have hfind : wanted.find? (fun w' => some w.1.toList = some w'.1.toList) = some w := by
    induction wanted with
    | nil => cases hw
    | cons first wanted ih =>
      rw [List.map_cons, List.nodup_cons] at hnodup
      rcases List.mem_cons.1 hw with rfl | hw
      · exact List.find?_cons_of_pos (decide_eq_true rfl)
      · have hne : w.1 ≠ first.1 := fun heq => hnodup.1 (List.mem_map.2 ⟨w, hw, heq⟩)
        rw [List.find?_cons, decide_eq_false (text_ne hne)]
        exact ih hnodup.2 hw
  rw [Shape.field, hfind]
  rfl

theorem field_of_fresh {text : Text} (h : ∀ w ∈ wanted, text ≠ some w.1.toList) :
    (Shape.record wanted).field text = .any := by
  have hnone : wanted.find? (fun w => text = some w.1.toList) = none :=
    List.find?_eq_none.2 fun w hw heq => h w hw (of_decide_eq_true heq)
  rw [Shape.field, hnone]
  rfl

/-- The known fields have the shapes that are wanted, and the others are read whatever they are. -/
theorem Described.fits (h : Described wanted known) : Fits (.record wanted) (record known) := by
  intro v' hrestated
  obtain ⟨restated, others, all, rfl, hall⟩ := hrestated.exists_restates
  refine reads_object fun f hf => ?_
  rcases List.mem_append.1 (hall.perm.mem_iff.1 hf) with hf | hf
  · obtain ⟨k, hk, hname, hvalue⟩ := exists_of_mem_right hall.values hf
    obtain ⟨w, hw, hsame, hfits⟩ := exists_of_mem_right h.fields hk
    rw [hname, ← hsame, field_of_mem h.nodup hw]
    exact hfits hvalue
  · rw [field_of_fresh fun w hw heq => ?_]
    · exact reads_any f.2
    · obtain ⟨k, hk, hsame, -⟩ := exists_of_mem_right h.fields.flip hw
      exact (hall.fresh f hf).2 k hk (by rw [heq, hsame])

end BeaconHistory.Json
