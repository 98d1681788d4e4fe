/-!
# Json — the values of a JSON document

A number is kept as it is spelled, because only some readers give it a value.  A string is kept as
the text it denotes; a string whose escapes name half of a surrogate pair is well formed and denotes
no text.
-/

namespace BeaconHistory

/-- The text a string denotes, if it denotes one. -/
abbrev Json.Text := Option (List Char)

inductive Json where
  | null
  | bool (value : Bool)
  | number (spelling : List Char)
  | string (text : Json.Text)
  | array (items : List Json)
  | object (fields : List (Json.Text × Json))
deriving Inhabited

namespace Json

def ofChars (text : List Char) : Json := string (some text)

/-! ## Whole numbers of 64 bits -/

def decimalValue (digits : List Char) : Nat :=
  digits.foldl (fun n c => 10 * n + (c.toNat - 48)) 0

def ofWord (n : UInt64) : Json := number (Nat.toDigits 10 n.toNat)

-- Reads a number of digits alone that fits in 64 bits.
def toWord? : Json → Option UInt64
  | number spelling =>
    if spelling ≠ [] ∧ spelling.all Char.isDigit ∧ decimalValue spelling < UInt64.size then
      some (UInt64.ofNat (decimalValue spelling))
    else none
  | _ => none

-- Reads a number of digits alone that fits in eight bits.
def toByte? (j : Json) : Option UInt8 :=
  j.toWord?.bind fun n => if n < 256 then some n.toUInt8 else none

end Json

end BeaconHistory
