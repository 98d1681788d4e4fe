import BeaconHistory.Proofs.Json.Grammar

/-!
# Json.Writing — what is written spells what it was written from

Writing takes one of the many spellings: no blanks, and escapes only where a character cannot stand as it is.
Main statements: words, texts, and arrays and records of what is written well are written in the notation, and
a word is read back from its digits.
-/

namespace BeaconHistory.Json

/-! ## 1. Words -/

-- The digits of a number do not start with zero, unless it is zero.
theorem exists_toDigits (n : Nat) (hn : n ≠ 0) :
    ∃ first rest, Nat.toDigits 10 n = first :: rest ∧ first ≠ '0' := by
  induction n using Nat.strongRecOn with
  | _ n ih =>
    by_cases hlt : n < 10
    · refine ⟨n.digitChar, [], Nat.toDigits_of_lt_base hlt, ?_⟩
      have hdigit : ∀ m < 10, m ≠ 0 → m.digitChar ≠ '0' := by decide
      exact hdigit n hlt hn
    · obtain ⟨first, rest, hdigits, hfirst⟩ := ih (n / 10) (by omega) (by omega)
      refine ⟨first, rest ++ [(n % 10).digitChar], ?_, hfirst⟩
      rw [Nat.toDigits_of_base_le (by decide) (by omega), hdigits]
      rfl

theorem run_toDigits (n : Nat) : Run (Nat.toDigits 10 n) :=
  ⟨Nat.toDigits_ne_nil, fun _ hc => Nat.isDigit_of_mem_toDigits (by decide) (by decide) hc⟩

theorem number_toDigits (n : Nat) : Number (Nat.toDigits 10 n) := by
  have hwhole : Whole (Nat.toDigits 10 n) := by
    by_cases hn : n = 0
    · subst hn
      exact Whole.zero
    · obtain ⟨first, rest, hdigits, hfirst⟩ := exists_toDigits n hn
      have hrun := run_toDigits n
      rw [hdigits] at hrun ⊢
      exact Whole.run hfirst hrun
  have hmagnitude := Magnitude.mk hwhole Fraction.absent Exponent.absent
  rw [List.append_nil, List.append_nil] at hmagnitude
  exact Number.positive hmagnitude

theorem decimalValue_toDigits (n : Nat) : decimalValue (Nat.toDigits 10 n) = n := by
  have hvalue : Nat.ofDigitChars 10 (Nat.toDigits 10 n) 0 = n := Nat.ofDigitChars_ten_toDigits
  rw [Nat.ofDigitChars_eq_foldl] at hvalue
  exact hvalue

theorem toWord?_ofWord (n : UInt64) : (ofWord n).toWord? = some n := by
  have hrun := run_toDigits n.toNat
  have hdigits : Nat.toDigits 10 n.toNat ≠ [] ∧ (Nat.toDigits 10 n.toNat).all Char.isDigit = true ∧
      decimalValue (Nat.toDigits 10 n.toNat) < UInt64.size := by
    refine ⟨hrun.ne_nil, List.all_eq_true.2 hrun.digits, ?_⟩
    rw [decimalValue_toDigits]
    exact n.toNat_lt
  rw [ofWord, toWord?, if_pos hdigits, decimalValue_toDigits, UInt64.ofNat_toNat]

theorem spells_ofWord (n : UInt64) : Spells (ofWord n) (ofWord n).write := by
  rw [ofWord, write]
  exact Spells.number (number_toDigits n.toNat)

/-! ## 2. Texts -/

-- A code unit that is no half of a pair is a character of its own.
theorem textOf_unit {n : Nat} (hn : n < 0xD800) (pieces : List Piece) :
    textOf (.unit n :: pieces) = (textOf pieces).map (Char.ofNat n :: ·) := by
  have hhigh : isHigh n = false := by simp [isHigh]; omega
  have hlow : isLow n = false := by simp [isLow]; omega
  cases pieces with
  | nil => simp [textOf, hhigh, hlow]
  | cons piece pieces =>
    cases piece with
    | char c => simp [textOf, hhigh, hlow]
    | unit l => simp [textOf, hhigh, hlow]

-- A control is written with the digits of its code.
theorem unit?_control {n : Nat} (hn : n < 0x20) :
    unit? '0' '0' (Hex.digit (n / 16)) (Hex.digit (n % 16)) = some n := by
  have hcodes : ∀ m < 0x20, unit? '0' '0' (Hex.digit (m / 16)) (Hex.digit (m % 16)) = some m := by decide
  exact hcodes n hn

theorem exists_pieces_escaped (text : List Char) :
    ∃ pieces, Pieces pieces (text.flatMap escaped) ∧ textOf pieces = some text := by
  induction text with
  | nil => exact ⟨[], Pieces.none, rfl⟩
  | cons c text ih =>
    obtain ⟨pieces, hpieces, htext⟩ := ih
    rw [List.flatMap_cons]
    by_cases hmark : c = '"' ∨ c = '\\'
    · have hescape : shortEscape? c = some c := by
        rcases hmark with rfl | rfl <;> rfl
      refine ⟨.char c :: pieces, ?_, by rw [textOf, htext]; rfl⟩
      rw [escaped, if_pos hmark]
      exact Pieces.short hescape hpieces
    by_cases hcontrol : c.toNat < 0x20
    · refine ⟨.unit c.toNat :: pieces, ?_, ?_⟩
      · rw [escaped, if_neg hmark, if_pos hcontrol]
        exact Pieces.unit (unit?_control hcontrol) hpieces
      · rw [textOf_unit (by omega), htext, Char.ofNat_toNat]
        rfl
    · obtain ⟨hquote, hbackslash⟩ := not_or.1 hmark
      refine ⟨.char c :: pieces, ?_, by rw [textOf, htext]; rfl⟩
      rw [escaped, if_neg hmark, if_neg hcontrol]
      exact Pieces.char hcontrol hquote hbackslash hpieces

theorem quotes_quoted (t : Text) : Quotes t (quoted t) := by
  cases t with
  | none => exact Quotes.mk (Pieces.unit (n := 0xD800) rfl Pieces.none)
  | some text =>
    obtain ⟨pieces, hpieces, htext⟩ := exists_pieces_escaped text
    have hquotes := Quotes.mk hpieces
    rw [htext] at hquotes
    exact hquotes

theorem spells_ofChars (text : List Char) : Spells (ofChars text) (ofChars text).write := by
  rw [ofChars, write]
  exact Spells.string (quotes_quoted _)

/-! ## 3. Arrays and objects -/

variable {v : Json} {text : List Char}

theorem blank_nil : Blank [] := fun _ hc => by cases hc

theorem document_of_spells (h : Spells v text) : Document v text := by
  have hdocument := Document.mk blank_nil h blank_nil
  rw [List.nil_append, List.append_nil] at hdocument
  exact hdocument

theorem exists_writeItems {items : List Json} (h : ∀ v ∈ items, Spells v v.write) :
    ∃ tail, writeItems items = tail ++ [']'] ∧
      ∀ (v : Json) (text : List Char), Spells v text → Items (v :: items) (text ++ tail) := by
  induction items with
  | nil =>
    refine ⟨[], rfl, fun v text hv => ?_⟩
    rw [List.append_nil]
    exact Items.last (document_of_spells hv)
  | cons item items ih =>
    obtain ⟨hitem, hitems⟩ := List.forall_mem_cons.1 h
    obtain ⟨tail, htail, hmore⟩ := ih hitems
    refine ⟨',' :: (item.write ++ tail), ?_, fun v text hv => ?_⟩
    · rw [writeItems, htail]
      simp only [List.cons_append, List.append_assoc]
    · exact Items.more (document_of_spells hv) (hmore item item.write hitem)

theorem spells_array {items : List Json} (h : ∀ v ∈ items, Spells v v.write) :
    Spells (array items) (array items).write := by
  cases items with
  | nil => exact Spells.noItems blank_nil
  | cons item items =>
    obtain ⟨hitem, hitems⟩ := List.forall_mem_cons.1 h
    obtain ⟨tail, htail, hmore⟩ := exists_writeItems hitems
    rw [write, htail]
    have hspells := Spells.items (hmore item item.write hitem)
    simp only [List.cons_append, List.append_assoc] at hspells ⊢
    exact hspells

theorem field_of_spells (name : Text) (h : Spells v text) : Field (name, v) (quoted name ++ ':' :: text) := by
  have hfield := Field.mk blank_nil (quotes_quoted name) blank_nil (document_of_spells h)
  rw [List.nil_append, List.append_nil] at hfield
  exact hfield

theorem exists_writeFields {fields : List (Text × Json)} (h : ∀ f ∈ fields, Spells f.2 f.2.write) :
    ∃ tail, writeFields fields = tail ++ ['}'] ∧
      ∀ (f : Text × Json) (text : List Char), Field f text → Fields (f :: fields) (text ++ tail) := by
  induction fields with
  | nil =>
    refine ⟨[], rfl, fun f text hf => ?_⟩
    rw [List.append_nil]
    exact Fields.last hf
  | cons field fields ih =>
    obtain ⟨hfield, hfields⟩ := List.forall_mem_cons.1 h
    obtain ⟨tail, htail, hmore⟩ := ih hfields
    obtain ⟨name, v⟩ := field
    refine ⟨',' :: (quoted name ++ ':' :: v.write ++ tail), ?_, fun f text hf => ?_⟩
    · rw [writeFields, htail]
      simp only [List.cons_append, List.append_assoc]
    · exact Fields.more hf (hmore (name, v) _ (field_of_spells name hfield))

theorem spells_object {fields : List (Text × Json)} (h : ∀ f ∈ fields, Spells f.2 f.2.write) :
    Spells (object fields) (object fields).write := by
  cases fields with
  | nil => exact Spells.noFields blank_nil
  | cons field fields =>
    obtain ⟨hfield, hfields⟩ := List.forall_mem_cons.1 h
    obtain ⟨tail, htail, hmore⟩ := exists_writeFields hfields
    obtain ⟨name, v⟩ := field
    rw [write, htail]
    have hspells := Spells.fields (hmore (name, v) _ (field_of_spells name hfield))
    simp only [List.cons_append, List.append_assoc] at hspells ⊢
    exact hspells

end BeaconHistory.Json
