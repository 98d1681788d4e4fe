import BeaconHistory.Hex

/-!
# Toml.Quoted — strings

Basic strings have escapes, literal ones have none; both come on one line or, between three quotes, on
several.  Every reader starts after the opening quotes and gives what follows the closing ones.
-/

namespace BeaconHistory.Toml

def isBlank (c : Char) : Bool := c = ' ' || c = '\t'

-- Tabs, and all characters that are no controls.
def isVisible (c : Char) : Bool := c = '\t' || (0x20 ≤ c.toNat && c.toNat ≠ 0x7f)

def newline? : List Char → Option (List Char)
  | '\n' :: rest => some rest
  | '\r' :: '\n' :: rest => some rest
  | _ => none

def skipBlankLines : List Char → List Char
  | '\r' :: '\n' :: rest => skipBlankLines rest
  | c :: rest => if isBlank c || c = '\n' then skipBlankLines rest else c :: rest
  | [] => []

-- The character with a number that is no half of a surrogate pair.
def scalarValue? (n : Nat) : Option Char :=
  if n < 0xD800 ∨ (0xDFFF < n ∧ n < 0x110000) then some (Char.ofNat n) else none

-- The character named by hexadecimal digits.
def numbered? (digits : List Char) : Option Char := do
  let values ← digits.mapM Hex.digitValue?
  scalarValue? (values.foldl (fun n d => 16 * n + d) 0)

-- The character named by the escape that follows a backslash.
def escape? : List Char → Option (Char × List Char)
  | 'b' :: rest => some ('\x08', rest)
  | 't' :: rest => some ('\t', rest)
  | 'n' :: rest => some ('\n', rest)
  | 'f' :: rest => some ('\x0c', rest)
  | 'r' :: rest => some ('\r', rest)
  | '"' :: rest => some ('"', rest)
  | '\\' :: rest => some ('\\', rest)
  | 'u' :: a :: b :: c :: d :: rest => (numbered? [a, b, c, d]).map (·, rest)
  | 'U' :: a :: b :: c :: d :: e :: f :: g :: h :: rest =>
    (numbered? [a, b, c, d, e, f, g, h]).map (·, rest)
  | _ => none

-- A literal string on one line.
def literal? : List Char → Option (List Char × List Char)
  | '\'' :: rest => some ([], rest)
  | c :: rest =>
    if isVisible c then (literal? rest).map fun (text, rest) => (c :: text, rest) else none
  | [] => none

-- A basic string on one line, of at most `fuel` characters.
def basicWithin? : Nat → List Char → Option (List Char × List Char)
  | 0, _ => none
  | fuel + 1, text => match text with
    | '"' :: rest => some ([], rest)
    | '\\' :: rest => do
      let (c, rest) ← escape? rest
      let (more, rest) ← basicWithin? fuel rest
      return (c :: more, rest)
    | c :: rest =>
      if isVisible c then (basicWithin? fuel rest).map fun (more, rest) => (c :: more, rest) else none
    | [] => none

def basic? (text : List Char) : Option (List Char × List Char) :=
  basicWithin? (text.length + 1) text

-- Closing quotes, which may follow up to two quotes of the text.
def closing? (quote : Char) : List Char → Option (List Char × List Char)
  | a :: b :: c :: d :: e :: rest =>
    if a = quote ∧ b = quote ∧ c = quote then
      if d = quote then if e = quote then some ([quote, quote], rest) else some ([quote], e :: rest)
      else some ([], d :: e :: rest)
    else none
  | [a, b, c, d] =>
    if a = quote ∧ b = quote ∧ c = quote then if d = quote then some ([quote], []) else some ([], [d])
    else none
  | [a, b, c] => if a = quote ∧ b = quote ∧ c = quote then some ([], []) else none
  | _ => none

-- A string on several lines, of at most `fuel` characters. `escapes` tells a basic string, where a
-- backslash at the end of a line drops the blanks and ends of lines that follow.
def multilineWithin? (quote : Char) (escapes : Bool) : Nat → List Char → Option (List Char × List Char)
  | 0, _ => none
  | fuel + 1, text => match closing? quote text with
    | some answer => some answer
    | none => match newline? text with
      | some rest =>
        (multilineWithin? quote escapes fuel rest).map fun (more, rest) => ('\n' :: more, rest)
      | none => match text with
        | [] => none
        | c :: rest =>
          if escapes ∧ c = '\\' then
            match newline? (rest.dropWhile isBlank) with
            | some rest => multilineWithin? quote escapes fuel (skipBlankLines rest)
            | none => do
              let (c, rest) ← escape? rest
              let (more, rest) ← multilineWithin? quote escapes fuel rest
              return (c :: more, rest)
          else if isVisible c then
            (multilineWithin? quote escapes fuel rest).map fun (more, rest) => (c :: more, rest)
          else none

-- A string on several lines; an end of line right after the opening quotes is dropped.
def multiline? (quote : Char) (escapes : Bool) (text : List Char) : Option (List Char × List Char) :=
  multilineWithin? quote escapes (text.length + 1) ((newline? text).getD text)

-- A string of any kind, with its opening quotes.
def string? : List Char → Option (List Char × List Char)
  | '"' :: '"' :: '"' :: rest => multiline? '"' true rest
  | '"' :: rest => basic? rest
  | '\'' :: '\'' :: '\'' :: rest => multiline? '\'' false rest
  | '\'' :: rest => literal? rest
  | _ => none

end BeaconHistory.Toml
