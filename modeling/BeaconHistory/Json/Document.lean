import BeaconHistory.Json.Shape
import BeaconHistory.Json.Surplus

/-!
# Json.Document — reading and writing a whole document

Reading takes one lexeme at a time and keeps the containers that are still open on a stack, so
nesting of any depth is read.  It follows the shape that its reader wants: after the last item of a
list of bytes the document may go on with a comma and an item that is given up.  Writing leaves no
blanks.
-/

namespace BeaconHistory.Json

/-! ## 1. Reading -/

/-- A container that is waiting for the value being read.  The shape of an array is that of the items
still to come. -/
inductive Frame where
  | array (shape : Shape) (done : List Json)
  | object (shape : Shape) (done : List (Text × Json)) (key : Text)

/-- What the document may go on with.  Lists of what is done are latest first. -/
inductive Awaiting where
  | value (shape : Shape)
  | itemOrClose (shape : Shape)
  | afterItem (shape : Shape) (done : List Json)
  | surplusOrClose (done : List Json)
  | close (done : List Json)
  | keyOrClose (shape : Shape)
  | key (shape : Shape) (done : List (Text × Json))
  | colon (shape : Shape) (done : List (Text × Json)) (key : Text)
  | afterField (shape : Shape) (done : List (Text × Json))
  | nothing (document : Json)

-- A document read up to some lexeme.
structure Unfinished where
  stack : List Frame
  awaiting : Awaiting

namespace Unfinished

-- A value is complete: it goes to the innermost open container.
def complete (v : Json) : List Frame → Unfinished
  | [] => ⟨[], .nothing v⟩
  | .array shape done :: stack => ⟨stack, .afterItem shape (v :: done)⟩
  | .object shape done key :: stack => ⟨stack, .afterField shape ((key, v) :: done)⟩

/-- A value of which `shape` is wanted starts with `token`. -/
def start? (shape : Shape) (stack : List Frame) : Token → Option Unfinished
  | .word v => some (complete v stack)
  | .number spelling => some (complete (.number spelling) stack)
  | .string text => some (complete (.string text) stack)
  | .openArray => some ⟨stack, .itemOrClose shape⟩
  | .openObject => some ⟨stack, .keyOrClose shape⟩
  | _ => none

/-- The document goes on with `token`. -/
def step? (u : Unfinished) (token : Token) : Option Unfinished :=
  match u.awaiting, token with
  | .value shape, token => start? shape u.stack token
  | .itemOrClose _, .closeArray => some (complete (.array []) u.stack)
  | .itemOrClose shape, token => start? shape.item (.array shape.later [] :: u.stack) token
  | .afterItem shape done, .comma =>
    if shape.isFull then some ⟨u.stack, .surplusOrClose done⟩
    else some ⟨.array shape.later done :: u.stack, .value shape.item⟩
  | .afterItem _ done, .closeArray => some (complete (.array done.reverse) u.stack)
  | .surplusOrClose done, .closeArray => some (complete (.array done.reverse) u.stack)
  | .surplusOrClose done, .surplus => some ⟨u.stack, .close done⟩
  | .close done, .closeArray => some (complete (.array done.reverse) u.stack)
  | .keyOrClose _, .closeObject => some (complete (.object []) u.stack)
  | .keyOrClose shape, .string key => some ⟨u.stack, .colon shape [] key⟩
  | .key shape done, .string key => some ⟨u.stack, .colon shape done key⟩
  | .colon shape done key, .colon => some ⟨.object shape done key :: u.stack, .value (shape.field key)⟩
  | .afterField shape done, .comma => some ⟨u.stack, .key shape done⟩
  | .afterField _ done, .closeObject => some (complete (.object done.reverse) u.stack)
  | _, _ => none

/-- The lexeme that starts with `c`, and what follows it.  Where a surplus item may come, everything
but the closing bracket is one. -/
def next? (u : Unfinished) (c : Char) (rest : List Char) : Option (Token × List Char) :=
  match u.awaiting with
  | .surplusOrClose _ =>
    if c = ']' then some (.closeArray, rest)
    else (Surplus.remainder? (c :: rest)).map (.surplus, ·)
  | _ => Token.next? c rest

-- The value of a complete document.
def document? (u : Unfinished) : Option Json :=
  match u.awaiting with
  | .nothing v => some v
  | _ => none

-- Reads on to the end, over at most `fuel` lexemes and blanks.
def readWithin? : Nat → Unfinished → List Char → Option Json
  | _, u, [] => u.document?
  | 0, _, _ :: _ => none
  | fuel + 1, u, c :: rest =>
    if isBlank c then readWithin? fuel u rest
    else do
      let (token, rest) ← u.next? c rest
      readWithin? fuel (← u.step? token) rest

end Unfinished

/-- Reads a document of one value, of which `shape` is wanted.  Each lexeme takes a character at
least, so the length of the text bounds their count. -/
def read? (shape : Shape) (text : List Char) : Option Json :=
  Unfinished.readWithin? text.length ⟨[], .value shape⟩ text

/-- Values that are read from a document. -/
class Readable (α : Type) where
  shape : Shape
  ofJson? : Json → Option α

def decode? {α : Type} [Readable α] (text : List Char) : Option α :=
  read? (Readable.shape α) text >>= Readable.ofJson?

/-! ## 2. Writing -/

-- Quotes, backslashes and controls are written as escapes.
def escaped (c : Char) : List Char :=
  if c = '"' ∨ c = '\\' then ['\\', c]
  else if c.toNat < 0x20 then
    ['\\', 'u', '0', '0', Hex.digit (c.toNat / 16), Hex.digit (c.toNat % 16)]
  else [c]

-- A string that denotes no text is written as half of a surrogate pair.
def quoted : Text → List Char
  | some text => '"' :: text.flatMap escaped ++ ['"']
  | none => ['"', '\\', 'u', 'd', '8', '0', '0', '"']

mutual

def write : Json → List Char
  | null => ['n', 'u', 'l', 'l']
  | bool true => ['t', 'r', 'u', 'e']
  | bool false => ['f', 'a', 'l', 's', 'e']
  | number spelling => spelling
  | string text => quoted text
  | array [] => ['[', ']']
  | array (item :: items) => '[' :: write item ++ writeItems items
  | object [] => ['{', '}']
  | object ((key, value) :: fields) => '{' :: quoted key ++ ':' :: write value ++ writeFields fields

-- The items after the first, and the closing bracket.
def writeItems : List Json → List Char
  | [] => [']']
  | item :: items => ',' :: write item ++ writeItems items

-- The fields after the first, and the closing brace.
def writeFields : List (Text × Json) → List Char
  | [] => ['}']
  | (key, value) :: fields => ',' :: quoted key ++ ':' :: write value ++ writeFields fields

end

end BeaconHistory.Json
