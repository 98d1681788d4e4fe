import BeaconHistory.Proofs.Json.Lexemes

/-!
# Json.Reading — every spelling of a value is read

The reader keeps the open containers on a stack and takes one lexeme after the other, so a value that is
spelled in front of some text takes it from where a value is wanted to where it has this value, with the text
left.  Main statement: a document is read whatever its blanks, escapes and nesting, if no list of a fixed count
of bytes is wanted where it has another value.
-/

namespace BeaconHistory.Json

/-! ## 1. Lexeme by lexeme -/

namespace Unfinished

variable {u v w : Unfinished} {text rest more : List Char} {c : Char} {token : Token}

/-- Reading `text` from `u` comes to `v` with `rest` left, in no more steps than there are characters. -/
def Reaches (u : Unfinished) (text : List Char) (v : Unfinished) (rest : List Char) : Prop :=
  ∃ n, n + rest.length ≤ text.length ∧ ∀ fuel, readWithin? (n + fuel) u text = readWithin? fuel v rest

theorem Reaches.refl (u : Unfinished) (text : List Char) : Reaches u text u text :=
  ⟨0, by omega, fun fuel => by rw [Nat.zero_add]⟩

theorem Reaches.trans (h : Reaches u text v rest) (h' : Reaches v rest w more) : Reaches u text w more := by
  obtain ⟨m, hm, hfirst⟩ := h
  obtain ⟨n, hn, hlast⟩ := h'
  refine ⟨m + n, by omega, fun fuel => ?_⟩
  rw [Nat.add_assoc, hfirst, hlast]

theorem Reaches.document? (h : Reaches u text v []) : readWithin? text.length u text = v.document? := by
  obtain ⟨n, hn, hread⟩ := h
  have hlength : text.length = n + (text.length - n) := by
    rw [List.length_nil] at hn
    omega
  rw [hlength, hread]
  cases text.length - n <;> rfl

theorem reaches_blank (hc : isBlank c = true) (u : Unfinished) (rest : List Char) :
    Reaches u (c :: rest) u rest := by
  refine ⟨1, by rw [List.length_cons]; omega, fun fuel => ?_⟩
  rw [Nat.add_comm, readWithin?, if_pos hc]

theorem reaches_blanks (h : Blank text) (u : Unfinished) (rest : List Char) :
    Reaches u (text ++ rest) u rest := by
  induction text with
  | nil => exact Reaches.refl u rest
  | cons c text ih =>
    obtain ⟨hc, htext⟩ := List.forall_mem_cons.1 h
    exact (reaches_blank hc u (text ++ rest)).trans (ih htext)

-- One lexeme takes the reader one step.
theorem reaches_lexeme (hc : isBlank c = false) (hnext : u.next? c text = some (token, rest))
    (hstep : u.step? token = some v) (hlength : rest.length ≤ text.length) : Reaches u (c :: text) v rest := by
  refine ⟨1, by rw [List.length_cons]; omega, fun fuel => ?_⟩
  rw [Nat.add_comm, readWithin?, if_neg (by rw [hc]; decide), hnext]
  dsimp only [bind, Option.bind]
  rw [hstep]

/-- A value comes next, of which `shape` is wanted and which is put on `stack`. -/
structure Wants (u : Unfinished) (shape : Shape) (stack : List Frame) : Prop where
  next : ∀ c text, u.next? c text = Token.next? c text
  step : ∀ token, token ≠ .closeArray → u.step? token = start? shape stack token

theorem wants_value (shape : Shape) (stack : List Frame) : Wants ⟨stack, .value shape⟩ shape stack :=
  ⟨fun _ _ => rfl, fun _ _ => rfl⟩

theorem wants_firstItem (shape : Shape) (stack : List Frame) :
    Wants ⟨stack, .itemOrClose shape⟩ shape.item (.array shape.later [] :: stack) := by
  refine ⟨fun _ _ => rfl, fun token htoken => ?_⟩
  cases token with
  | closeArray => exact absurd rfl htoken
  | _ => rfl

-- The lexeme that a value starts with.
theorem Wants.reaches {shape : Shape} {stack : List Frame} (h : u.Wants shape stack) (hc : isBlank c = false)
    (hnext : Token.next? c text = some (token, rest)) (htoken : token ≠ .closeArray)
    (hstart : start? shape stack token = some v) (hlength : rest.length ≤ text.length) :
    Reaches u (c :: text) v rest :=
  reaches_lexeme hc ((h.next c text).trans hnext) ((h.step token htoken).trans hstart) hlength

/-- The name of a field comes next, after the fields in `done`. -/
structure WantsField (u : Unfinished) (shape : Shape) (done : List (Text × Json)) (stack : List Frame) :
    Prop where
  next : ∀ c text, u.next? c text = Token.next? c text
  step : ∀ name, u.step? (.string name) = some ⟨stack, .colon shape done name⟩

theorem wantsField_key (shape : Shape) (done : List (Text × Json)) (stack : List Frame) :
    WantsField ⟨stack, .key shape done⟩ shape done stack := ⟨fun _ _ => rfl, fun _ => rfl⟩

theorem wantsField_first (shape : Shape) (stack : List Frame) :
    WantsField ⟨stack, .keyOrClose shape⟩ shape [] stack := ⟨fun _ _ => rfl, fun _ => rfl⟩

end Unfinished

/-! ## 2. Values -/

open Unfinished

variable {u : Unfinished} {shape : Shape} {stack : List Frame} {v : Json} {text rest : List Char}

theorem isNumeric_of_isBlank {c : Char} (h : isBlank c = true) : isNumeric c = false := by
  simp only [isBlank, Bool.or_eq_true, decide_eq_true_eq] at h
  rcases h with ((rfl | rfl) | rfl) | rfl <;> rfl

theorem Blank.stops (h : Blank text) (hrest : Stops isNumeric rest) : Stops isNumeric (text ++ rest) := by
  cases text with
  | nil => exact hrest
  | cons c text => exact stops_cons (isNumeric_of_isBlank (h c List.mem_cons_self))

/-- However `v` is spelled, a reader that wants `shape` takes all of it and has `v`. -/
def Reads (shape : Shape) (v : Json) : Prop :=
  ∀ ⦃u : Unfinished⦄ ⦃stack : List Frame⦄ ⦃text rest : List Char⦄, u.Wants shape stack → Spells v text →
    Stops isNumeric rest → u.Reaches (text ++ rest) (complete v stack) rest

theorem Reads.document (h : Reads shape v) (hwants : u.Wants shape stack) (hdocument : Document v text)
    (hrest : Stops isNumeric rest) : u.Reaches (text ++ rest) (complete v stack) rest := by
  cases hdocument with
  | @mk _ before text after hbefore hspells hafter =>
    rw [List.append_assoc, List.append_assoc]
    exact ((reaches_blanks hbefore u _).trans (h hwants hspells (hafter.stops hrest))).trans
      (reaches_blanks hafter _ rest)

def IsLeaf : Json → Prop
  | array _ => False
  | object _ => False
  | _ => True

/-- A value without parts is one lexeme, whatever is wanted. -/
theorem reads_leaf (hleaf : v.IsLeaf) (shape : Shape) : Reads shape v := by
  intro u stack text rest hwants hspells hrest
  cases hspells with
  | null => exact hwants.reaches rfl rfl (by simp) rfl (by simp; omega)
  | true => exact hwants.reaches rfl rfl (by simp) rfl (by simp; omega)
  | false => exact hwants.reaches rfl rfl (by simp) rfl (by simp; omega)
  | number h =>
    obtain ⟨c, tail, rfl, hc⟩ := h.exists_cons
    have hblank : isBlank c = false := by
      rcases hc with hc | rfl
      · refine Bool.eq_false_iff.2 fun hblank => ?_
        have hnot := isNumeric_of_isBlank hblank
        simp [isNumeric, hc] at hnot
      · rfl
    exact hwants.reaches hblank (next?_number h hrest) (by simp) rfl (by simp)
  | @string t _ h =>
    obtain ⟨tail, rfl, hnext⟩ := next?_quotes h rest
    exact hwants.reaches rfl hnext (by simp) rfl (by simp)
  | noItems => cases hleaf
  | items => cases hleaf
  | noFields => cases hleaf
  | fields => cases hleaf

/-! ## 3. Arrays -/

-- A shape that is the same for all items, and never has enough of them.
structure Shape.Even (shape : Shape) : Prop where
  later : shape.later = shape
  notFull : shape.isFull = false

theorem step?_comma (hshape : shape.Even) (done : List Json) (stack : List Frame) :
    step? ⟨stack, .afterItem shape done⟩ .comma =
      some ⟨.array shape done :: stack, .value shape.item⟩ := by
  unfold step?
  dsimp only
  rw [hshape.notFull, hshape.later]
  rfl

theorem reaches_items (hshape : shape.Even) {items done : List Json}
    (hwants : u.Wants shape.item (.array shape done :: stack)) (hitems : ∀ v ∈ items, Reads shape.item v)
    (hspells : Items items text) :
    u.Reaches (text ++ ']' :: rest) (complete (.array (done.reverse ++ items)) stack) rest := by
  induction items generalizing u done text with
  | nil => cases hspells
  | cons v items ih =>
    obtain ⟨hv, hitems⟩ := List.forall_mem_cons.1 hitems
    cases hspells with
    | last h =>
      have hclose : Reaches ⟨stack, .afterItem shape (v :: done)⟩ (']' :: rest)
          (complete (.array (v :: done).reverse) stack) rest := reaches_lexeme rfl rfl rfl (by simp)
      rw [List.reverse_cons] at hclose
      exact (hv.document hwants h (stops_cons rfl)).trans hclose
    | @more _ _ text later h hlater =>
      have hcomma : Reaches ⟨stack, .afterItem shape (v :: done)⟩ (',' :: (later ++ ']' :: rest))
          ⟨.array shape (v :: done) :: stack, .value shape.item⟩ (later ++ ']' :: rest) :=
        reaches_lexeme rfl rfl (step?_comma hshape _ _) (by simp)
      have hrest := ih (wants_value shape.item (.array shape (v :: done) :: stack)) hitems hlater
      rw [List.reverse_cons, List.append_assoc, List.singleton_append] at hrest
      rw [List.append_assoc, List.cons_append]
      exact ((hv.document hwants h (stops_cons rfl)).trans hcomma).trans hrest

theorem reads_array (hshape : shape.Even) {items : List Json} (hitems : ∀ v ∈ items, Reads shape.item v) :
    Reads shape (.array items) := by
  intro u stack text rest hwants hspells hrest
  have hopen (text : List Char) : u.Reaches ('[' :: text) ⟨stack, .itemOrClose shape⟩ text :=
    hwants.reaches rfl rfl (by simp) rfl (by simp)
  cases hspells with
  | @noItems text h =>
    have hclose : Reaches ⟨stack, .itemOrClose shape⟩ (']' :: rest) (complete (.array []) stack) rest :=
      reaches_lexeme rfl rfl rfl (by simp)
    rw [List.append_assoc, List.cons_append, List.singleton_append]
    exact ((hopen _).trans (reaches_blanks h _ _)).trans hclose
  | @items _ text h =>
    have hfirst := wants_firstItem shape stack
    rw [hshape.later] at hfirst
    rw [List.append_assoc, List.cons_append, List.singleton_append]
    exact (hopen _).trans (reaches_items hshape hfirst hitems h)

/-! ## 4. Objects -/

theorem reaches_field {name : Text} {done : List (Text × Json)} (hwants : u.WantsField shape done stack)
    (hv : Reads (shape.field name) v) (hspells : Field (name, v) text) (hrest : Stops isNumeric rest) :
    u.Reaches (text ++ rest) ⟨stack, .afterField shape ((name, v) :: done)⟩ rest := by
  cases hspells with
  | @mk _ _ before key after text hbefore hkey hafter h =>
    obtain ⟨tail, rfl, hnext⟩ := next?_quotes hkey (after ++ (':' :: (text ++ rest)))
    have hname : u.Reaches ('"' :: (tail ++ (after ++ (':' :: (text ++ rest)))))
        ⟨stack, .colon shape done name⟩ (after ++ (':' :: (text ++ rest))) :=
      reaches_lexeme rfl ((hwants.next _ _).trans hnext) (hwants.step name) (by simp)
    have hcolon : Reaches ⟨stack, .colon shape done name⟩ (':' :: (text ++ rest))
        ⟨.object shape done name :: stack, .value (shape.field name)⟩ (text ++ rest) :=
      reaches_lexeme rfl rfl rfl (by simp)
    have hvalue := hv.document (wants_value _ (.object shape done name :: stack)) h hrest
    simp only [List.append_assoc, List.cons_append]
    exact ((((reaches_blanks hbefore u _).trans hname).trans (reaches_blanks hafter _ _)).trans hcolon).trans
      hvalue

theorem reaches_fields {fields done : List (Text × Json)} (hwants : u.WantsField shape done stack)
    (hfields : ∀ f ∈ fields, Reads (shape.field f.1) f.2) (hspells : Fields fields text) :
    u.Reaches (text ++ '}' :: rest) (complete (.object (done.reverse ++ fields)) stack) rest := by
  induction fields generalizing u done text with
  | nil => cases hspells
  | cons field fields ih =>
    obtain ⟨name, v⟩ := field
    obtain ⟨hfield, hrestFields⟩ := List.forall_mem_cons.1 hfields
    cases hspells with
    | last h =>
      have hclose : Reaches ⟨stack, .afterField shape ((name, v) :: done)⟩ ('}' :: rest)
          (complete (.object ((name, v) :: done).reverse) stack) rest := reaches_lexeme rfl rfl rfl (by simp)
      rw [List.reverse_cons] at hclose
      exact (reaches_field hwants hfield h (stops_cons rfl)).trans hclose
    | @more _ _ text later h hlater =>
      have hcomma : Reaches ⟨stack, .afterField shape ((name, v) :: done)⟩ (',' :: (later ++ '}' :: rest))
          ⟨stack, .key shape ((name, v) :: done)⟩ (later ++ '}' :: rest) := reaches_lexeme rfl rfl rfl (by simp)
      have hrest := ih (wantsField_key shape ((name, v) :: done) stack) hrestFields hlater
      rw [List.reverse_cons, List.append_assoc, List.singleton_append] at hrest
      rw [List.append_assoc, List.cons_append]
      exact ((reaches_field hwants hfield h (stops_cons rfl)).trans hcomma).trans hrest

theorem reads_object {fields : List (Text × Json)} (hfields : ∀ f ∈ fields, Reads (shape.field f.1) f.2) :
    Reads shape (.object fields) := by
  intro u stack text rest hwants hspells hrest
  have hopen (text : List Char) : u.Reaches ('{' :: text) ⟨stack, .keyOrClose shape⟩ text :=
    hwants.reaches rfl rfl (by simp) rfl (by simp)
  cases hspells with
  | @noFields text h =>
    have hclose : Reaches ⟨stack, .keyOrClose shape⟩ ('}' :: rest) (complete (.object []) stack) rest :=
      reaches_lexeme rfl rfl rfl (by simp)
    rw [List.append_assoc, List.cons_append, List.singleton_append]
    exact ((hopen _).trans (reaches_blanks h _ _)).trans hclose
  | @fields _ text h =>
    rw [List.append_assoc, List.cons_append, List.singleton_append]
    exact (hopen _).trans (reaches_fields (wantsField_first shape stack) hfields h)

/-! ## 5. Documents -/

/-- Where nothing particular is wanted, every value is read. -/
theorem reads_any (v : Json) : Reads .any v := by
  match v with
  | .array items => exact reads_array ⟨rfl, rfl⟩ fun v hv => reads_any v
  | .object fields => exact reads_object fun f hf => reads_any f.2
  | .null | .bool _ | .number _ | .string _ =>
    apply reads_leaf
    trivial
termination_by v
decreasing_by
  · have := List.sizeOf_lt_of_mem hv
    simp
    omega
  · have := List.sizeOf_lt_of_mem hf
    obtain ⟨name, v⟩ := f
    simp at this ⊢
    omega

theorem Reads.read? (h : Reads shape v) (hdocument : Document v text) : read? shape text = some v := by
  have hreach := h.document (wants_value shape []) hdocument (stops_nil isNumeric)
  rw [List.append_nil] at hreach
  exact hreach.document?

end BeaconHistory.Json
