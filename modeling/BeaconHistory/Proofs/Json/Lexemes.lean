import BeaconHistory.Proofs.Json.Grammar

/-!
# Json.Lexemes — lexemes are read as they are spelled

A number is read as far as its grammar allows, so it ends only before a character that it cannot go on with.
Main statements: a number is read to its end if what follows ends it, and a string is read to its end whatever
follows.
-/

namespace BeaconHistory.Json

variable {text rest : List Char} {p q : Char → Bool} {c : Char}

/-! ## 1. Numbers -/

/-- What is read as long as `p` holds stops before `text`. -/
def Stops (p : Char → Bool) (text : List Char) : Prop := ∀ c ∈ text.head?, p c = false

theorem stops_nil (p : Char → Bool) : Stops p [] := fun _ hc => by cases hc

theorem stops_cons (h : p c = false) : Stops p (c :: text) := by
  intro c' hc'
  rw [← Option.some.inj hc']
  exact h

theorem Stops.mono (h : Stops p text) (himp : ∀ c, q c = true → p c = true) : Stops q text := by
  intro c hc
  have hp := h c hc
  refine Bool.eq_false_iff.2 fun hq => ?_
  rw [himp c hq] at hp
  cases hp

-- A number may go on with such characters: in its whole part, after that, and after its fraction.
def isPointed (c : Char) : Bool := c.isDigit || c = '.'

def isNumeric (c : Char) : Bool := c.isDigit || c = '.' || c = 'e' || c = 'E'

theorem isPointed_of_isDigit (c : Char) (h : c.isDigit = true) : isPointed c = true := by
  simp [isPointed, h]

theorem isNumeric_of_isPointed (c : Char) (h : isPointed c = true) : isNumeric c = true := by
  simp only [isPointed] at h
  simp only [isNumeric, h, Bool.true_or]

-- The longest run of digits is read.
theorem digits_append (hrun : ∀ c ∈ text, c.isDigit = true) (hrest : Stops Char.isDigit rest) :
    digits (text ++ rest) = (text, rest) := by
  unfold digits
  rw [List.takeWhile_append_of_pos hrun, List.dropWhile_append_of_pos hrun]
  cases rest with
  | nil => simp
  | cons c rest =>
    have hc : c.isDigit = false := hrest c rfl
    simp [hc]

theorem whole?_append (h : Whole text) (hrest : Stops Char.isDigit rest) :
    whole? (text ++ rest) = some (text, rest) := by
  cases h with
  | zero => rfl
  | @run first tail hfirst h =>
    have hdigits := digits_append h.digits hrest
    unfold whole?
    split
    · next heq => exact absurd (List.cons.inj heq).1 hfirst
    · rw [hdigits]

theorem fraction?_append (h : Fraction text) (hrest : Stops isPointed rest) :
    fraction? (text ++ rest) = some (text, rest) := by
  cases h with
  | absent =>
    rw [List.nil_append]
    unfold fraction?
    split
    · next tail =>
      have hpoint : isPointed '.' = false := hrest '.' rfl
      cases hpoint
    · rfl
  | @point run h =>
    rw [List.cons_append, fraction?, digits_append h.digits (hrest.mono isPointed_of_isDigit)]
    cases run with
    | nil => exact absurd rfl h.ne_nil
    | cons => rfl

theorem signedRun?_append (h : Run text) (hrest : Stops Char.isDigit rest) :
    signedRun? (text ++ rest) = some (text, rest) ∧
      ∀ sign, sign = '+' ∨ sign = '-' → signedRun? (sign :: text ++ rest) = some (sign :: text, rest) := by
  have hdigits := digits_append h.digits hrest
  obtain ⟨hne, hall⟩ := h
  cases text with
  | nil => exact absurd rfl hne
  | cons first tail =>
    have hfirst : first.isDigit = true := hall first (List.mem_cons_self)
    have hplain : ¬ (first = '+' ∨ first = '-') := by
      rintro (rfl | rfl) <;> cases hfirst
    rw [List.cons_append] at hdigits ⊢
    constructor
    · unfold signedRun?
      dsimp only
      rw [if_neg hplain, hdigits]
    · intro sign hsign
      rw [List.cons_append]
      unfold signedRun?
      dsimp only
      rw [if_pos hsign, List.cons_append, hdigits]

theorem exponent?_append (h : Exponent text) (hrest : Stops isNumeric rest) :
    exponent? (text ++ rest) = some (text, rest) := by
  have hdigit : Stops Char.isDigit rest :=
    hrest.mono fun c hc => isNumeric_of_isPointed c (isPointed_of_isDigit c hc)
  cases h with
  | absent =>
    cases rest with
    | nil => rfl
    | cons c rest =>
      have hc : isNumeric c = false := hrest c rfl
      have hletter : ¬ (c = 'e' ∨ c = 'E') := by
        rintro (rfl | rfl) <;> cases hc
      rw [List.nil_append]
      unfold exponent?
      dsimp only
      rw [if_neg hletter]
  | plain hletter h =>
    rw [List.cons_append]
    unfold exponent?
    dsimp only
    rw [if_pos hletter, (signedRun?_append h hdigit).1]
    rfl
  | signed hletter hsign h =>
    rw [List.cons_append]
    unfold exponent?
    dsimp only
    rw [if_pos hletter, (signedRun?_append h hdigit).2 _ hsign]
    rfl

theorem Exponent.stops (h : Exponent text) (hrest : Stops isNumeric rest) : Stops isPointed (text ++ rest) := by
  cases h with
  | absent => exact hrest.mono isNumeric_of_isPointed
  | plain hletter h =>
    apply stops_cons
    rcases hletter with rfl | rfl <;> rfl
  | signed hletter hsign h =>
    apply stops_cons
    rcases hletter with rfl | rfl <;> rfl

theorem Fraction.stops (h : Fraction text) (hrest : Stops isPointed rest) :
    Stops Char.isDigit (text ++ rest) := by
  cases h with
  | absent => exact hrest.mono isPointed_of_isDigit
  | point h => exact stops_cons rfl

theorem magnitude?_append (h : Magnitude text) (hrest : Stops isNumeric rest) :
    magnitude? (text ++ rest) = some (text, rest) := by
  cases h with
  | @mk whole fraction exponent hwhole hfraction hexponent =>
    have hafter := hexponent.stops hrest
    unfold magnitude?
    rw [List.append_assoc, List.append_assoc, whole?_append hwhole (hfraction.stops hafter)]
    dsimp only [bind, Option.bind]
    rw [fraction?_append hfraction hafter]
    dsimp only
    rw [exponent?_append hexponent hrest]
    rfl

theorem Magnitude.exists_cons (h : Magnitude text) : ∃ c tail, text = c :: tail ∧ c.isDigit = true := by
  cases h with
  | mk hwhole _ _ =>
    cases hwhole with
    | zero => exact ⟨'0', _, rfl, rfl⟩
    | run _ h => exact ⟨_, _, rfl, h.digits _ List.mem_cons_self⟩

theorem number?_append (h : Number text) (hrest : Stops isNumeric rest) :
    number? (text ++ rest) = some (text, rest) := by
  cases h with
  | positive h =>
    obtain ⟨c, tail, rfl, hc⟩ := h.exists_cons
    have hread := magnitude?_append h hrest
    unfold number?
    split
    · next heq =>
      rw [(List.cons.inj heq).1] at hc
      cases hc
    · exact hread
  | negative h =>
    rw [List.cons_append, number?, magnitude?_append h hrest]
    rfl

theorem Number.exists_cons (h : Number text) :
    ∃ c tail, text = c :: tail ∧ (c.isDigit = true ∨ c = '-') := by
  cases h with
  | positive h =>
    obtain ⟨c, tail, rfl, hc⟩ := h.exists_cons
    exact ⟨c, tail, rfl, Or.inl hc⟩
  | negative h => exact ⟨'-', _, rfl, Or.inr rfl⟩

-- No other lexeme starts with a digit or a minus.
theorem next?_of_digit (hc : c.isDigit = true ∨ c = '-') (text : List Char) :
    Token.next? c text = (number? (c :: text)).map fun (run, rest) => (.number run, rest) := by
  rcases hc with hc | rfl
  · unfold Token.next?
    split <;> first | rfl | cases hc
  · rfl

theorem next?_number {tail : List Char} (h : Number (c :: tail)) (hrest : Stops isNumeric rest) :
    Token.next? c (tail ++ rest) = some (.number (c :: tail), rest) := by
  have hc : c.isDigit = true ∨ c = '-' := by
    obtain ⟨_, _, heq, hc⟩ := h.exists_cons
    rwa [(List.cons.inj heq).1]
  have hread := number?_append h hrest
  rw [List.cons_append] at hread
  rw [next?_of_digit hc, hread]
  rfl

/-! ## 2. Strings -/

theorem pieces?_append {pieces : List Piece} (h : Pieces pieces text) :
    pieces? (text ++ '"' :: rest) = some (pieces, rest) := by
  induction h with
  | none => rfl
  | @char c pieces text hcontrol hquote hbackslash h ih =>
    have hplain : ¬ (c.toNat < 0x20 ∨ c = '\\') := fun h => h.elim hcontrol hbackslash
    rw [List.cons_append, pieces?, if_neg hplain, ih]
    · rfl
    · exact hquote
    · exact fun _ _ _ _ _ hc => absurd hc hbackslash
    · exact fun _ _ hc => absurd hc hbackslash
  | @short e c pieces text he h ih =>
    -- The escapes with digits have a letter of their own.
    have hletter : e ≠ 'u' := by
      rintro rfl
      cases he
    rw [List.cons_append, List.cons_append, pieces?, he]
    · dsimp only [bind, Option.bind]
      rw [ih]
      rfl
    · exact fun _ _ _ _ _ he' => absurd he' hletter
  | @unit n a b c d pieces text hn h ih =>
    simp only [List.cons_append]
    rw [pieces?, hn]
    dsimp only [bind, Option.bind]
    rw [ih]
    rfl

theorem next?_quotes {t : Text} (h : Quotes t text) (rest : List Char) :
    ∃ tail, text = '"' :: tail ∧ Token.next? '"' (tail ++ rest) = some (.string t, rest) := by
  cases h with
  | @mk pieces text h =>
    refine ⟨text ++ ['"'], rfl, ?_⟩
    rw [List.append_assoc, List.singleton_append]
    simp only [Token.next?, pieces?_append h, Option.map_some]

end BeaconHistory.Json
