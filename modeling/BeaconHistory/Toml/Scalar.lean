import BeaconHistory.Hex
import BeaconHistory.Toml.Basic

/-!
# Toml.Scalar — numbers, truth values, dates and times

These are spelled without quotes and end at the first character that none of them may have, so a run
of such characters is taken first and then read as a whole.
-/

namespace BeaconHistory.Toml

/-! ## 1. Whole numbers -/

-- At least one digit, with single underscores between digits.
def isRun (isDigit : Char → Bool) : List Char → Bool
  | [] => false
  | [c] => isDigit c
  | c :: '_' :: rest => isDigit c && isRun isDigit rest
  | c :: rest => isDigit c && isRun isDigit rest

def isHexDigit (c : Char) : Bool := (Hex.digitValue? c).isSome

-- The number that a run spells in a base.
def runValue (base : Nat) (run : List Char) : Nat :=
  (run.filterMap Hex.digitValue?).foldl (fun n d => base * n + d) 0

-- A decimal run without a needless leading zero.
def isPlain (run : List Char) : Bool :=
  isRun Char.isDigit run && (run.head? != some '0' || run == ['0'])

-- Whole numbers have 64 bits with a sign.
def inRange (n : Int) : Option Int :=
  if Int64.minValue.toInt ≤ n ∧ n ≤ Int64.maxValue.toInt then some n else none

def based? (base : Nat) (isDigit : Char → Bool) (run : List Char) : Option Int :=
  if isRun isDigit run then inRange (runValue base run) else none

def decimal? (run : List Char) : Option Nat := if isPlain run then some (runValue 10 run) else none

def integer? : List Char → Option Int
  | '0' :: 'x' :: run => based? 16 isHexDigit run
  | '0' :: 'o' :: run => based? 8 (fun c => '0' ≤ c && c ≤ '7') run
  | '0' :: 'b' :: run => based? 2 (fun c => c = '0' || c = '1') run
  | '-' :: run => decimal? run >>= fun n => inRange (-n)
  | '+' :: run => decimal? run >>= fun n => inRange n
  | run => decimal? run >>= fun n => inRange n

/-! ## 2. Floats -/

-- Drops a sign; gives whether it was a minus.
def unsigned : List Char → Bool × List Char
  | '-' :: rest => (true, rest)
  | '+' :: rest => (false, rest)
  | rest => (false, rest)

/-- The parts of a float: digits before and after the point, and the exponent. -/
structure Decimal where
  negative : Bool
  whole : List Char
  fraction : List Char
  exponent : Int

-- Reads the sign and the digits after the letter of an exponent.
def exponent? (text : List Char) : Option Int :=
  let (negative, run) := unsigned text
  if isRun Char.isDigit run then some (if negative then -(runValue 10 run : Int) else runValue 10 run)
  else none

def isExponentMark (c : Char) : Bool := c = 'e' || c = 'E'

-- A whole part with a fraction, an exponent or both.
def decimalParts? (text : List Char) : Option Decimal :=
  let (negative, text) := unsigned text
  let (mantissa, exponent) := text.span fun c => !isExponentMark c
  let (whole, fraction) := mantissa.span fun c => c ≠ '.'
  if !isPlain whole then none
  else match fraction, exponent with
    | [], [] => none
    | [], _ :: e => (exponent? e).map fun e => ⟨negative, whole, [], e⟩
    | _ :: run, [] => if isRun Char.isDigit run then some ⟨negative, whole, run, 0⟩ else none
    | _ :: run, _ :: e =>
      if isRun Char.isDigit run then (exponent? e).map fun e => ⟨negative, whole, run, e⟩ else none

/-- The least number that rounds to no finite double: half a unit above the largest one. -/
def overflowBound : Nat := (1 <<< 1024) - (1 <<< 970)

/-- Whether a decimal rounds to infinity.  The count of digits decides, except near the bound. -/
def Decimal.overflows (d : Decimal) : Bool :=
  let fraction := d.fraction.filter Char.isDigit
  let digits := runValue 10 (d.whole ++ fraction)
  let scale := d.exponent - fraction.length
  -- The number lies between the powers of ten below and at this exponent.
  let magnitude := (Nat.toDigits 10 digits).length + scale
  if digits = 0 || magnitude < 309 then false
  else if magnitude > 310 then true
  else if 0 ≤ scale then overflowBound ≤ digits * Nat.pow 10 scale.toNat
  else overflowBound * Nat.pow 10 (-scale).toNat ≤ digits

/-- A float may round to negative infinity but not to positive infinity. -/
def isFloat (text : List Char) : Bool :=
  let magnitude := (unsigned text).2
  magnitude = ['i', 'n', 'f'] || magnitude = ['n', 'a', 'n'] ||
    (decimalParts? text).any fun d => d.negative || !d.overflows

/-! ## 3. Dates and times -/

def pair? (a b : Char) : Option Nat :=
  if a.isDigit ∧ b.isDigit then some (runValue 10 [a, b]) else none

def daysIn (year month : Nat) : Nat :=
  if month = 2 then if year % 4 = 0 ∧ (year % 100 ≠ 0 ∨ year % 400 = 0) then 29 else 28
  else if month = 4 ∨ month = 6 ∨ month = 9 ∨ month = 11 then 30
  else 31

-- Drops a date of the calendar.
def date? : List Char → Option (List Char)
  | a :: b :: c :: d :: '-' :: e :: f :: '-' :: g :: h :: rest => do
    let year := 100 * (← pair? a b) + (← pair? c d)
    let month ← pair? e f
    let day ← pair? g h
    if 1 ≤ month ∧ month ≤ 12 ∧ 1 ≤ day ∧ day ≤ daysIn year month then some rest else none
  | _ => none

-- Drops nothing, or a point and at least one digit.
def secondFraction? : List Char → Option (List Char)
  | '.' :: c :: rest => if c.isDigit then some (rest.dropWhile Char.isDigit) else none
  | '.' :: [] => none
  | rest => some rest

-- Drops a time of day; a minute may have a leap second.
def time? : List Char → Option (List Char)
  | a :: b :: ':' :: c :: d :: ':' :: e :: f :: rest => do
    let hour ← pair? a b
    let minute ← pair? c d
    let second ← pair? e f
    if hour ≤ 23 ∧ minute ≤ 59 ∧ second ≤ 60 then secondFraction? rest else none
  | _ => none

-- Whether the text is a distance from universal time.
def isOffset : List Char → Bool
  | ['Z'] | ['z'] => true
  | [sign, a, b, ':', c, d] =>
    (sign = '+' || sign = '-') && (pair? a b).any (· ≤ 23) && (pair? c d).any (· ≤ 59)
  | _ => false

-- Whether the text is a time of day, with or without an offset.
def isTime (withOffset : Bool) (text : List Char) : Bool :=
  match time? text with
  | some [] => true
  | some rest => withOffset && isOffset rest
  | none => false

def isMoment (text : List Char) : Bool :=
  match date? text with
  | some [] => true
  | some (mark :: rest) => (mark = 'T' || mark = 't' || mark = ' ') && isTime true rest
  | none => isTime false text

/-! ## 4. Runs -/

-- Whether a scalar without quotes may have the character.
def isScalarChar (c : Char) : Bool :=
  c.isAlphanum || c = '_' || c = '+' || c = '-' || c = '.' || c = ':'

def scalar? (text : List Char) : Option Toml :=
  if text = ['t', 'r', 'u', 'e'] then some (boolean true)
  else if text = ['f', 'a', 'l', 's', 'e'] then some (boolean false)
  else match integer? text with
    | some n => some (integer n)
    | none =>
      if isMoment text then some (moment text)
      else if isFloat text then some (float text)
      else none

-- Takes the run of a scalar. A blank between a date and a time belongs to it.
def scalarRun (text : List Char) : List Char × List Char :=
  let (run, rest) := text.span isScalarChar
  match date? run, rest with
  | some [], ' ' :: c :: rest =>
    -- A digit after the blank can only start a time.
    if c.isDigit then
      let (time, rest) := (c :: rest).span isScalarChar
      (run ++ ' ' :: time, rest)
    else (run, ' ' :: c :: rest)
  | _, _ => (run, rest)

end BeaconHistory.Toml
