import BeaconHistory.Json.Token

/-!
# Json.Surplus — one item too many

The reader of a list of bytes that has them all tries whether there is one more.  If there is, the
list is too long.  If what follows is no byte, the reader gives up as soon as it notices, and the list
has to close right there: at the end of a value of another kind, or inside of one that is malformed.
Every function here gives what is left of the text, or nothing where no closing bracket can follow.
-/

namespace BeaconHistory.Json.Surplus

-- Drops a count of bytes, which must not end inside of a character.
def dropBytes? : Nat → List Char → Option (List Char)
  | 0, text => some text
  | _ + 1, [] => none
  | n + 1, c :: rest => if c.utf8Size ≤ n + 1 then dropBytes? (n + 1 - c.utf8Size) rest else none

-- Follows a word, up to and with the first character that is another.
def afterWord? : List Char → List Char → Option (List Char)
  | [], text => some text
  | w :: word, c :: rest => if c = w then afterWord? word rest else dropBytes? 1 (c :: rest)
  | _ :: _, [] => none

/-! ## 1. Strings -/

-- Drops the four bytes of a code unit, and reads them if they are digits.
def afterUnit? (text : List Char) : Option (Option Nat × List Char) :=
  (dropBytes? 4 text).map fun rest => match text with
    | a :: b :: c :: d :: _ => (unit? a b c d, rest)
    | _ => (none, rest)

-- What follows a high code unit: a low one, and the string goes on; anything else, and it does not.
def afterHigh? : List Char → Option (Bool × List Char)
  | '\\' :: 'u' :: rest => (afterUnit? rest).map fun (n, rest) => (n.any isLow, rest)
  | '\\' :: rest => (dropBytes? 1 rest).map (false, ·)
  | rest => (dropBytes? 1 rest).map (false, ·)

/-- Drops an escape after its backslash; gives whether the string goes on. -/
def afterEscape? : List Char → Option (Bool × List Char)
  | 'u' :: rest => match afterUnit? rest with
    | some (some n, rest) => if isHigh n then afterHigh? rest else some (!isLow n, rest)
    | some (none, rest) => some (false, rest)
    | none => none
  | c :: rest =>
    if (shortEscape? c).isSome then some (true, rest) else (dropBytes? 1 (c :: rest)).map (false, ·)
  | [] => none

-- Drops at most `fuel` characters and escapes, up to and with the closing quote or what no string may have.
def afterStringWithin? : Nat → List Char → Option (List Char)
  | 0, _ => none
  | fuel + 1, text => match text with
    | '"' :: rest => some rest
    | '\\' :: rest => match afterEscape? rest with
      | some (true, rest) => afterStringWithin? fuel rest
      | some (false, rest) => some rest
      | none => none
    | c :: rest => if c.toNat < 0x20 then some rest else afterStringWithin? fuel rest
    | [] => none

def afterString? (text : List Char) : Option (List Char) := afterStringWithin? (text.length + 1) text

/-! ## 2. Numbers -/

-- The largest exponent that is read as a whole.
def exponentLimit : Nat := (1 <<< 31) - 1

-- Drops the digits of an exponent, of which those already dropped spell `n`, up to and with the one that
-- takes it past the limit.
def afterExponentDigits (n : Nat) : List Char → List Char
  | [] => []
  | c :: rest =>
    if !c.isDigit then c :: rest
    else
      let n := 10 * n + (c.toNat - 48)
      if exponentLimit < n then rest else afterExponentDigits n rest

/-- Drops an exponent after its letter.  Only a number that an exponent could make infinite is cut at
the limit. -/
def afterExponent? (isZero : Bool) (text : List Char) : Option (List Char) :=
  let (isNegative, text) := match text with
    | '-' :: rest => (true, rest)
    | '+' :: rest => (false, rest)
    | rest => (false, rest)
  match text with
  | c :: rest =>
    if !c.isDigit then dropBytes? 1 (c :: rest)
    else if isZero || isNegative then some (rest.dropWhile Char.isDigit)
    else some (afterExponentDigits (c.toNat - 48) rest)
  | [] => none

-- Drops the exponent of a number, if it has one.
def afterMantissa? (isZero : Bool) : List Char → Option (List Char)
  | c :: rest => if c = 'e' ∨ c = 'E' then afterExponent? isZero rest else some (c :: rest)
  | [] => none

-- What is left after a number whose whole part is `whole`; none for a byte.
def afterWhole? (isNegative : Bool) (whole : List Char) : List Char → Option (List Char)
  | '.' :: rest => match digits rest with
    | ([], rest) => some rest
    | (run, rest) => afterMantissa? ((whole ++ run).all (· = '0')) rest
  | c :: rest =>
    if c = 'e' ∨ c = 'E' then afterExponent? (whole.all (· = '0')) rest
    else if !isNegative && decimalValue whole < 256 then none
    else some (c :: rest)
  | [] => none

-- A number after its sign.
def afterNumber? (isNegative : Bool) (text : List Char) : Option (List Char) :=
  match text with
  | '0' :: rest => afterWhole? isNegative ['0'] rest
  | _ => match digits text with
    | ([], rest) => dropBytes? 1 rest
    | (run, rest) => afterWhole? isNegative run rest

/-! ## 3. Items -/

-- What is left of `text` where a reader that wants a byte gives up; none if there is a byte.
def remainder? : List Char → Option (List Char)
  | '"' :: rest => afterString? rest
  | 'n' :: rest => afterWord? ['u', 'l', 'l'] rest
  | 't' :: rest => afterWord? ['r', 'u', 'e'] rest
  | 'f' :: rest => afterWord? ['a', 'l', 's', 'e'] rest
  | '-' :: rest => afterNumber? true rest
  | c :: rest => if c.isDigit then afterNumber? false (c :: rest) else none
  | [] => none

end BeaconHistory.Json.Surplus
