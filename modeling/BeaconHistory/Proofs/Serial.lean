import BeaconHistory.Proofs.Json.Restated
import BeaconHistory.Proofs.Json.Writing
import BeaconHistory.Spec.Config

/-!
# Serial — chain values are read back

Reading looks each field up by its name and skips what it does not know.  Main statement: a value of the chain
is read from what it is written as, and from every document of that with its fields in another order and among
others; as a configuration, a specification is refused only for a divisor that is zero, and for the first.
-/

namespace BeaconHistory

open Json

/-! ## 1. Reading back -/

namespace Json

variable {shape : Shape} {j v : Json} {text : List Char}

/-- What `v` is written as spells it, and `v` is read where `shape` is wanted. -/
structure Exchanged (shape : Shape) (v : Json) : Prop where
  spells : Spells v v.write
  fits : Fits shape v

theorem isLeaf_ofWord (n : UInt64) : (ofWord n).IsLeaf := trivial

theorem toWord?_restated {n : UInt64} (h : RestatedAs (ofWord n) v) : v.toWord? = some n := by
  rw [h.eq_of_leaf (isLeaf_ofWord n), toWord?_ofWord]

theorem exchanged_ofWord (n : UInt64) : Exchanged .any (ofWord n) :=
  ⟨spells_ofWord n, fits_leaf (isLeaf_ofWord n) _⟩

variable {α : Type} [Readable α] {a : α}

/-- `j` is exchanged in place of `a`. -/
structure Faithful (j : Json) (a : α) : Prop where
  exchanged : Exchanged (Readable.shape α) j
  read : ∀ ⦃v : Json⦄, RestatedAs j v → Readable.ofJson? v = some a

/-- A record whose fields are exchanged, and which is read wherever all of them are found. -/
theorem faithful_record {wanted : List (String × Shape)} {known : List (String × Json)}
    (hshape : Readable.shape α = .record wanted)
    (hfields : List.Forall₂ (fun w k => w.1 = k.1 ∧ Exchanged w.2 k.2) wanted known)
    (hnodup : (wanted.map Prod.fst).Nodup)
    (hread : ∀ (v : Json) (values : List Json), List.Forall₂ RestatedAs (known.map Prod.snd) values →
      record? wanted v = some (values.map some) → Readable.ofJson? v = some a) : Faithful (record known) a := by
  have hdescribed : Described wanted known :=
    ⟨hfields.imp fun _ _ hfield => ⟨hfield.1, hfield.2.fits⟩, hnodup⟩
  refine ⟨⟨spells_object fun f hf => ?_, hshape ▸ hdescribed.fits⟩, fun v hv => ?_⟩
  · obtain ⟨k, hk, rfl⟩ := List.mem_map.1 hf
    obtain ⟨w, -, hfield⟩ := exists_of_mem_right hfields hk
    exact hfield.2.spells
  · obtain ⟨values, hvalues, hfound⟩ := hdescribed.exists_record? hv
    exact hread v values hvalues hfound

theorem Faithful.decode? (h : Faithful j a) (hrestated : RestatedAs j v) (hdocument : Document v text) :
    decode? text = some a := by
  have hread : read? (Readable.shape α) text = some v := (h.exchanged.fits hrestated).read? hdocument
  rw [Json.decode?, hread]
  exact h.read hrestated

/-- What `j` is written as is a document of it, and the value `a` is read from that and from every document of
`j` with the fields of its objects in any order and among others. -/
structure Recovered (j : Json) (a : α) : Prop where
  document : Document j j.write
  written : Json.decode? j.write = some a
  restated : ∀ ⦃v : Json⦄ ⦃text : List Char⦄, RestatedAs j v → Document v text → Json.decode? text = some a

theorem Faithful.recovered (h : Faithful j a) : Recovered j a := by
  have hdocument := document_of_spells h.exchanged.spells
  exact ⟨hdocument, h.decode? (.same j) hdocument, fun _ _ => h.decode?⟩

end Json

/-! ## 2. Roots -/

namespace Root

variable {v : Json}

theorem isLeaf_toJson (r : Root) : r.toJson.IsLeaf := trivial

theorem exchanged (r : Root) : Exchanged shape r.toJson :=
  ⟨spells_ofChars r.chars, fits_leaf r.isLeaf_toJson _⟩

theorem ofJson?_toJson (r : Root) : ofJson? r.toJson = some r := ofChars?_chars r

theorem ofJson?_restated {r : Root} (h : RestatedAs r.toJson v) : ofJson? v = some r := by
  rw [h.eq_of_leaf r.isLeaf_toJson, ofJson?_toJson]

theorem exchanged_list (roots : List Root) : Exchanged (.list shape) (listToJson roots) := by
  refine ⟨spells_array fun v hv => ?_, fits_array ⟨rfl, rfl⟩ fun v hv => ?_⟩
  · obtain ⟨r, -, rfl⟩ := List.mem_map.1 hv
    exact r.exchanged.spells
  · obtain ⟨r, -, rfl⟩ := List.mem_map.1 hv
    exact r.isLeaf_toJson

theorem listOfJson?_listToJson (roots : List Root) : listOfJson? (listToJson roots) = some roots := by
  rw [listToJson, listOfJson?, List.mapM_map]
  induction roots with
  | nil => rfl
  | cons r roots ih =>
    rw [List.mapM_cons, ih, Function.comp, ofJson?_toJson]
    rfl

theorem listOfJson?_restated {roots : List Root} (h : RestatedAs (listToJson roots) v) :
    listOfJson? v = some roots := by
  rw [h.eq_of_array]
  exact listOfJson?_listToJson roots

end Root

/-! ## 3. Records -/

theorem Position.faithful (p : Position) : Faithful p.toJson p := by
  refine faithful_record rfl (.cons ⟨rfl, exchanged_ofWord p.slot⟩ (.cons ⟨rfl, p.root.exchanged⟩ .nil))
    (by decide) fun v values hvalues hfound => ?_
  simp only [List.map_cons, List.map_nil, List.forall₂_cons_left_iff, List.forall₂_nil_left_iff] at hvalues
  obtain ⟨slot, _, hslot, ⟨root, _, hroot, rfl, rfl⟩, rfl⟩ := hvalues
  change ofJson? v = some p
  rw [ofJson?, hfound]
  simp [toWord?_restated hslot, Root.ofJson?_restated hroot]

theorem Checkpoint.faithful (c : Checkpoint) : Faithful c.toJson c := by
  refine faithful_record rfl (.cons ⟨rfl, exchanged_ofWord c.epoch⟩ (.cons ⟨rfl, c.root.exchanged⟩ .nil))
    (by decide) fun v values hvalues hfound => ?_
  simp only [List.map_cons, List.map_nil, List.forall₂_cons_left_iff, List.forall₂_nil_left_iff] at hvalues
  obtain ⟨epoch, _, hepoch, ⟨root, _, hroot, rfl, rfl⟩, rfl⟩ := hvalues
  change ofJson? v = some c
  rw [ofJson?, hfound]
  simp [toWord?_restated hepoch, Root.ofJson?_restated hroot]

theorem Header.faithful (h : Header) : Faithful h.toJson h := by
  refine faithful_record rfl
    (.cons ⟨rfl, exchanged_ofWord h.slot⟩ (.cons ⟨rfl, exchanged_ofWord h.proposerIndex⟩
      (.cons ⟨rfl, h.parentRoot.exchanged⟩ (.cons ⟨rfl, h.stateRoot.exchanged⟩
        (.cons ⟨rfl, h.bodyRoot.exchanged⟩ .nil)))))
    (by decide) fun v values hvalues hfound => ?_
  simp only [List.map_cons, List.map_nil, List.forall₂_cons_left_iff, List.forall₂_nil_left_iff] at hvalues
  obtain ⟨slot, _, hslot, ⟨proposer, _, hproposer, ⟨parent, _, hparent, ⟨state, _, hstate,
    ⟨body, _, hbody, rfl, rfl⟩, rfl⟩, rfl⟩, rfl⟩, rfl⟩ := hvalues
  change ofJson? v = some h
  rw [ofJson?, hfound]
  simp [toWord?_restated hslot, toWord?_restated hproposer, Root.ofJson?_restated hparent,
    Root.ofJson?_restated hstate, Root.ofJson?_restated hbody]

-- A block is written as its header.
theorem Block.faithful (b : Block) : Faithful b.toJson b := by
  refine ⟨b.toHeader.faithful.exchanged, fun v hv => ?_⟩
  have hheader : Header.ofJson? v = some b.toHeader := b.toHeader.faithful.read hv
  change ofJson? v = some b
  rw [ofJson?, hheader]
  rfl

-- The header in a state may be restated too.
theorem State.faithful (s : State) : Faithful s.toJson s := by
  refine faithful_record rfl
    (.cons ⟨rfl, exchanged_ofWord s.slot⟩ (.cons ⟨rfl, s.latestHeader.faithful.exchanged⟩
      (.cons ⟨rfl, Root.exchanged_list s.blockRoots⟩ (.cons ⟨rfl, Root.exchanged_list s.stateRoots⟩
        (.cons ⟨rfl, s.randaoMix.exchanged⟩ (.cons ⟨rfl, exchanged_ofWord s.validatorCount⟩ .nil))))))
    (by decide) fun v values hvalues hfound => ?_
  simp only [List.map_cons, List.map_nil, List.forall₂_cons_left_iff, List.forall₂_nil_left_iff] at hvalues
  obtain ⟨slot, _, hslot, ⟨header, _, hheader, ⟨blocks, _, hblocks, ⟨states, _, hstates,
    ⟨randao, _, hrandao, ⟨count, _, hcount, rfl, rfl⟩, rfl⟩, rfl⟩, rfl⟩, rfl⟩, rfl⟩ := hvalues
  have hlatest : Header.ofJson? header = some s.latestHeader := s.latestHeader.faithful.read hheader
  change ofJson? v = some s
  rw [ofJson?, hfound]
  simp [toWord?_restated hslot, hlatest, Root.listOfJson?_restated hblocks, Root.listOfJson?_restated hstates,
    Root.ofJson?_restated hrandao, toWord?_restated hcount]

theorem Spec.faithful (s : Spec) : Faithful s.toJson s := by
  refine faithful_record rfl
    (.cons ⟨rfl, exchanged_ofWord s.slotsPerEpoch⟩ (.cons ⟨rfl, exchanged_ofWord s.historyLength⟩
      (.cons ⟨rfl, exchanged_ofWord s.secondsPerSlot⟩ (.cons ⟨rfl, exchanged_ofWord s.genesisSlot⟩ .nil))))
    (by decide) fun v values hvalues hfound => ?_
  simp only [List.map_cons, List.map_nil, List.forall₂_cons_left_iff, List.forall₂_nil_left_iff] at hvalues
  obtain ⟨slots, _, hslots, ⟨history, _, hhistory, ⟨seconds, _, hseconds,
    ⟨genesis, _, hgenesis, rfl, rfl⟩, rfl⟩, rfl⟩, rfl⟩ := hvalues
  change ofJson? v = some s
  rw [ofJson?, hfound]
  simp [toWord?_restated hslots, toWord?_restated hhistory, toWord?_restated hseconds,
    toWord?_restated hgenesis]

/-! ## 4. Configurations -/

namespace Spec

variable {s : Spec} {text : String}

/-- What comes of a specification that is configured by `text`. -/
structure Configures (text : String) (s : Spec) : Prop where
  eq_ok_iff : ofJsonText text = .ok s ↔ s.slotsPerEpoch ≠ 0 ∧ s.historyLength ≠ 0 ∧ s.secondsPerSlot ≠ 0
  slotsPerEpoch : s.slotsPerEpoch = 0 → ofJsonText text = .error (.zeroValue .slotsPerEpoch)
  historyLength : s.slotsPerEpoch ≠ 0 → s.historyLength = 0 →
    ofJsonText text = .error (.zeroValue .historyLength)
  secondsPerSlot : s.slotsPerEpoch ≠ 0 → s.historyLength ≠ 0 → s.secondsPerSlot = 0 →
    ofJsonText text = .error (.zeroValue .secondsPerSlot)

theorem configures_of_decode? (h : decode? text.toList = some s) : Configures text s := by
  have hread : ofJsonText text = validated .malformedJson (some s) := by rw [ofJsonText, h]
  have hrefused {c : Constant} (hzero : s.validate = .error (.zeroValue c)) :
      ofJsonText text = .error (.zeroValue c) := by rw [hread, validated, hzero]
  refine ⟨?_, fun hslots => hrefused ?_, fun hslots hhistory => hrefused ?_,
    fun hslots hhistory hseconds => hrefused ?_⟩
  · rw [← validate_eq_ok_iff, hread, validated]
    cases s.validate with
    | ok => simp
    | error => simp
  · rw [validate, if_pos hslots]
  · rw [validate, if_neg hslots, if_pos hhistory]
  · rw [validate, if_neg hslots, if_neg hhistory, if_pos hseconds]

end Spec

/-- Every value of the chain is read from what it is written as and from every document of that, its fields in
any order and among others, and a configuration is refused only for the first divisor that is zero. -/
theorem values_recovered :
    (∀ p : Position, Recovered p.toJson p) ∧ (∀ c : Checkpoint, Recovered c.toJson c) ∧
      (∀ h : Header, Recovered h.toJson h) ∧ (∀ b : Block, Recovered b.toJson b) ∧
      (∀ s : State, Recovered s.toJson s) ∧ (∀ s : Spec, Recovered s.toJson s) ∧
      (∀ s : Spec, Spec.Configures (String.ofList s.toJson.write) s) ∧
      ∀ (s : Spec) (v : Json) (text : List Char), RestatedAs s.toJson v → Document v text →
        Spec.Configures (String.ofList text) s := by
  refine ⟨fun p => p.faithful.recovered, fun c => c.faithful.recovered, fun h => h.faithful.recovered,
    fun b => b.faithful.recovered, fun s => s.faithful.recovered, fun s => s.faithful.recovered, ?_, ?_⟩
  · intro s
    apply Spec.configures_of_decode?
    rw [String.toList_ofList]
    exact s.faithful.recovered.written
  · intro s v text hrestated hdocument
    apply Spec.configures_of_decode?
    rw [String.toList_ofList]
    exact s.faithful.recovered.restated hrestated hdocument

/-- A checkpoint whose fields are swapped and come after another one, and a specification with two zeros. -/
theorem values_recovered_swapped :
    decode? (object [(some "memo".toList, array [null, object []]), (some "root".toList, Root.zero.toJson),
        (some "epoch".toList, ofWord 7)]).write = some (⟨7, Root.zero⟩ : Checkpoint) ∧
      Spec.ofJsonText (String.ofList (Spec.toJson ⟨8, 0, 0, 0⟩).write) = .error (.zeroValue .historyLength) := by
  obtain ⟨-, hcheckpoints, -, -, -, -, hwritten, -⟩ := values_recovered
  have hrestated : RestatedAs (Checkpoint.toJson ⟨7, Root.zero⟩) (object [
      (some "memo".toList, array [null, object []]), (some "root".toList, Root.zero.toJson),
      (some "epoch".toList, ofWord 7)]) :=
    .object rfl (.cons (.same (ofWord 7)) (.cons (.same Root.zero.toJson) .nil))
      (List.forall_mem_singleton.2 ⟨rfl, by decide⟩)
      (List.reverse_perm [(some "epoch".toList, ofWord 7), (some "root".toList, Root.zero.toJson),
        (some "memo".toList, array [null, object []])])
  refine ⟨(hcheckpoints ⟨7, Root.zero⟩).restated hrestated (document_of_spells ?_),
    (hwritten ⟨8, 0, 0, 0⟩).historyLength (by decide) rfl⟩
  have hempty : Spells (object []) (object []).write := spells_object (List.forall_mem_nil _)
  have hmemo : Spells (array [null, object []]) (array [null, object []]).write :=
    spells_array (List.forall_mem_cons.2 ⟨.null, List.forall_mem_singleton.2 hempty⟩)
  exact spells_object (by simp [hmemo, spells_ofWord, Root.zero.exchanged.spells])

end BeaconHistory
