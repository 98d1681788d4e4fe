import BeaconHistory.Json.Basic
import BeaconHistory.Hex

/-!
# Json.Token — the lexemes of a JSON document

Marks, words, numbers and strings, with blanks between them.  A number takes as many characters as
its grammar allows; what then follows without a mark between is refused later, because no two values
may stand side by side.
-/

namespace BeaconHistory.Json

inductive Token where
  | openArray
  | closeArray
  | openObject
  | closeObject
  | comma
  | colon
  | word (value : Json)
  | number (spelling : List Char)
  | string (text : Text)
  -- An item of a list that is complete already, given up by its reader.
  | surplus

/-! ## 1. Strings -/

/-- One element of a string: a character, or a code unit named by an escape. -/
inductive Piece where
  | char (c : Char)
  | unit (n : Nat)

def isHigh (n : Nat) : Bool := 0xD800 ≤ n && n < 0xDC00

def isLow (n : Nat) : Bool := 0xDC00 ≤ n && n < 0xE000

/-- The text denoted by the pieces: a high unit is followed by a low one and makes a character with
it. -/
def textOf : List Piece → Text
  | [] => some []
  | .char c :: rest => (textOf rest).map (c :: ·)
  | .unit h :: .unit l :: rest =>
    if isHigh h && isLow l then
      (textOf rest).map (Char.ofNat (0x10000 + (h - 0xD800) * 0x400 + (l - 0xDC00)) :: ·)
    else if isHigh h || isLow h then none
    else (textOf (.unit l :: rest)).map (Char.ofNat h :: ·)
  | .unit n :: rest =>
    if isHigh n || isLow n then none else (textOf rest).map (Char.ofNat n :: ·)

-- The number written by four hexadecimal digits.
def unit? (a b c d : Char) : Option Nat := do
  return 4096 * (← Hex.digitValue? a) + 256 * (← Hex.digitValue? b) + 16 * (← Hex.digitValue? c)
    + (← Hex.digitValue? d)

-- The character named by a short escape.
def shortEscape? : Char → Option Char
  | '"' => some '"'
  | '\\' => some '\\'
  | '/' => some '/'
  | 'b' => some '\x08'
  | 'f' => some '\x0c'
  | 'n' => some '\n'
  | 'r' => some '\r'
  | 't' => some '\t'
  | _ => none

/-- Reads up to the closing quote, and gives what follows it. -/
def pieces? : List Char → Option (List Piece × List Char)
  | '"' :: rest => some ([], rest)
  | '\\' :: 'u' :: a :: b :: c :: d :: rest => do
    let n ← unit? a b c d
    let (more, rest) ← pieces? rest
    return (.unit n :: more, rest)
  | '\\' :: e :: rest => do
    let c ← shortEscape? e
    let (more, rest) ← pieces? rest
    return (.char c :: more, rest)
  | c :: rest =>
    if c.toNat < 0x20 ∨ c = '\\' then none
    else do
      let (more, rest) ← pieces? rest
      return (.char c :: more, rest)
  | [] => none

/-! ## 2. Numbers -/

-- The longest run of digits in front, and the rest.
def digits (text : List Char) : List Char × List Char :=
  (text.takeWhile Char.isDigit, text.dropWhile Char.isDigit)

-- One digit, or several that do not start with zero.
def whole? : List Char → Option (List Char × List Char)
  | '0' :: rest => some (['0'], rest)
  | text => match digits text with
    | ([], _) => none
    | run => some run

-- Nothing, or a point and at least one digit.
def fraction? : List Char → Option (List Char × List Char)
  | '.' :: rest => match digits rest with
    | ([], _) => none
    | (run, rest) => some ('.' :: run, rest)
  | text => some ([], text)

-- An optional sign and at least one digit.
def signedRun? : List Char → Option (List Char × List Char)
  | c :: rest =>
    if c = '+' ∨ c = '-' then match digits rest with
      | ([], _) => none
      | (run, rest) => some (c :: run, rest)
    else match digits (c :: rest) with
      | ([], _) => none
      | run => some run
  | [] => none

-- Nothing, or the letter of an exponent and a whole number with an optional sign.
def exponent? : List Char → Option (List Char × List Char)
  | c :: rest =>
    if c = 'e' ∨ c = 'E' then (signedRun? rest).map fun (run, rest) => (c :: run, rest)
    else some ([], c :: rest)
  | [] => some ([], [])

def magnitude? (text : List Char) : Option (List Char × List Char) := do
  let (whole, rest) ← whole? text
  let (fraction, rest) ← fraction? rest
  let (exponent, rest) ← exponent? rest
  return (whole ++ fraction ++ exponent, rest)

def number? : List Char → Option (List Char × List Char)
  | '-' :: rest => (magnitude? rest).map fun (run, rest) => ('-' :: run, rest)
  | text => magnitude? text

/-! ## 3. Lexemes -/

def isBlank (c : Char) : Bool := c = ' ' || c = '\t' || c = '\n' || c = '\r'

def Token.next? (c : Char) (rest : List Char) : Option (Token × List Char) :=
  match c, rest with
  | '[', rest => some (openArray, rest)
  | ']', rest => some (closeArray, rest)
  | '{', rest => some (openObject, rest)
  | '}', rest => some (closeObject, rest)
  | ',', rest => some (comma, rest)
  | ':', rest => some (colon, rest)
  | 'n', 'u' :: 'l' :: 'l' :: rest => some (word .null, rest)
  | 't', 'r' :: 'u' :: 'e' :: rest => some (word (.bool true), rest)
  | 'f', 'a' :: 'l' :: 's' :: 'e' :: rest => some (word (.bool false), rest)
  | '"', rest => (pieces? rest).map fun (ps, rest) => (string (textOf ps), rest)
  | c, rest => (number? (c :: rest)).map fun (run, rest) => (number run, rest)

end BeaconHistory.Json
