import BeaconHistory.Json.Document

/-!
# Json.Grammar — the texts that spell a value

A document is a value among blanks, and a value may be spelled in many ways: with blanks between its parts,
with any escapes in its strings.  The rules are those of the notation and know of no reader; what a string
denotes is told by its pieces.
-/

namespace BeaconHistory.Json

/-! ## 1. Numbers -/

def Blank (text : List Char) : Prop := ∀ c ∈ text, isBlank c = true

/-- At least one digit. -/
structure Run (text : List Char) : Prop where
  ne_nil : text ≠ []
  digits : ∀ c ∈ text, c.isDigit = true

/-- A whole number has no zero in front. -/
inductive Whole : List Char → Prop where
  | zero : Whole ['0']
  | run {first : Char} {rest : List Char} (hfirst : first ≠ '0') (h : Run (first :: rest)) :
      Whole (first :: rest)

inductive Fraction : List Char → Prop where
  | absent : Fraction []
  | point {run : List Char} (h : Run run) : Fraction ('.' :: run)

inductive Exponent : List Char → Prop where
  | absent : Exponent []
  | plain {letter : Char} {run : List Char} (hletter : letter = 'e' ∨ letter = 'E') (h : Run run) :
      Exponent (letter :: run)
  | signed {letter sign : Char} {run : List Char} (hletter : letter = 'e' ∨ letter = 'E')
      (hsign : sign = '+' ∨ sign = '-') (h : Run run) : Exponent (letter :: sign :: run)

inductive Magnitude : List Char → Prop where
  | mk {whole fraction exponent : List Char} (hwhole : Whole whole) (hfraction : Fraction fraction)
      (hexponent : Exponent exponent) : Magnitude (whole ++ fraction ++ exponent)

inductive Number : List Char → Prop where
  | positive {text : List Char} (h : Magnitude text) : Number text
  | negative {text : List Char} (h : Magnitude text) : Number ('-' :: text)

/-! ## 2. Strings -/

/-- The pieces of a string, each spelled as it is or as an escape. -/
inductive Pieces : List Piece → List Char → Prop where
  | none : Pieces [] []
  | char {c : Char} {pieces : List Piece} {text : List Char} (hcontrol : ¬ c.toNat < 0x20) (hquote : c ≠ '"')
      (hbackslash : c ≠ '\\') (h : Pieces pieces text) : Pieces (.char c :: pieces) (c :: text)
  | short {e c : Char} {pieces : List Piece} {text : List Char} (he : shortEscape? e = some c)
      (h : Pieces pieces text) : Pieces (.char c :: pieces) ('\\' :: e :: text)
  | unit {n : Nat} {a b c d : Char} {pieces : List Piece} {text : List Char} (hn : unit? a b c d = some n)
      (h : Pieces pieces text) : Pieces (.unit n :: pieces) ('\\' :: 'u' :: a :: b :: c :: d :: text)

/-- A string in quotes; it denotes a text or, with half of a pair of code units in it, none. -/
inductive Quotes : Text → List Char → Prop where
  | mk {pieces : List Piece} {text : List Char} (h : Pieces pieces text) :
      Quotes (textOf pieces) ('"' :: text ++ ['"'])

/-! ## 3. Values -/

mutual

/-- `text` spells a value, from its first character to its last. -/
inductive Spells : Json → List Char → Prop where
  | null : Spells null ['n', 'u', 'l', 'l']
  | true : Spells (bool true) ['t', 'r', 'u', 'e']
  | false : Spells (bool false) ['f', 'a', 'l', 's', 'e']
  | number {text : List Char} (h : Number text) : Spells (number text) text
  | string {t : Text} {text : List Char} (h : Quotes t text) : Spells (string t) text
  | noItems {text : List Char} (h : Blank text) : Spells (array []) ('[' :: text ++ [']'])
  | items {items : List Json} {text : List Char} (h : Items items text) :
      Spells (array items) ('[' :: text ++ [']'])
  | noFields {text : List Char} (h : Blank text) : Spells (object []) ('{' :: text ++ ['}'])
  | fields {fields : List (Text × Json)} {text : List Char} (h : Fields fields text) :
      Spells (object fields) ('{' :: text ++ ['}'])

/-- `text` is a document of one value: the value among blanks. -/
inductive Document : Json → List Char → Prop where
  | mk {v : Json} {before text after : List Char} (hbefore : Blank before) (h : Spells v text)
      (hafter : Blank after) : Document v (before ++ text ++ after)

/-- The items of an array, with commas between them. -/
inductive Items : List Json → List Char → Prop where
  | last {v : Json} {text : List Char} (h : Document v text) : Items [v] text
  | more {v : Json} {items : List Json} {text rest : List Char} (h : Document v text)
      (hrest : Items items rest) : Items (v :: items) (text ++ ',' :: rest)

/-- A field of an object: its name, a colon, and its value. -/
inductive Field : Text × Json → List Char → Prop where
  | mk {name : Text} {v : Json} {before key after text : List Char} (hbefore : Blank before)
      (hkey : Quotes name key) (hafter : Blank after) (h : Document v text) :
      Field (name, v) (before ++ key ++ after ++ ':' :: text)

/-- The fields of an object, with commas between them. -/
inductive Fields : List (Text × Json) → List Char → Prop where
  | last {field : Text × Json} {text : List Char} (h : Field field text) : Fields [field] text
  | more {field : Text × Json} {fields : List (Text × Json)} {text rest : List Char} (h : Field field text)
      (hrest : Fields fields rest) : Fields (field :: fields) (text ++ ',' :: rest)

end

end BeaconHistory.Json
