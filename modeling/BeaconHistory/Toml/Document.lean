import BeaconHistory.Toml.Quoted
import BeaconHistory.Toml.Scalar

/-!
# Toml.Document — reading a whole document

A document is a list of lines, each an assignment or a header; assignments before the first header
belong to the document itself, later ones to the table of the header before them.
-/

namespace BeaconHistory.Toml

/-- Keys have fewer parts, and arrays and inline tables fewer levels, than this. -/
def depthLimit : Nat := 80

/-! ## 1. Blanks and comments -/

def skipBlanks (text : List Char) : List Char := text.dropWhile isBlank

def skipComment : List Char → List Char
  | '#' :: rest => rest.dropWhile isVisible
  | text => text

-- Drops the rest of a line that has nothing but blanks and a comment.
def lineEnd? (text : List Char) : Option (List Char) :=
  match skipComment (skipBlanks text) with
  | [] => some []
  | rest => newline? rest

-- Drops blanks, ends of lines and comments, at most `fuel` in a row.
def skipFillerWithin : Nat → List Char → List Char
  | 0, text => text
  | fuel + 1, text => match skipBlankLines text with
    | '#' :: rest => match newline? (rest.dropWhile isVisible) with
      | some rest => skipFillerWithin fuel rest
      | none => '#' :: rest
    | rest => rest

def skipFiller (text : List Char) : List Char := skipFillerWithin text.length text

/-! ## 2. Keys -/

def isBareKeyChar (c : Char) : Bool := c.isAlphanum || c = '_' || c = '-'

-- A key of one part.
def simpleKey? : List Char → Option (Key × List Char)
  | '"' :: rest => basic? rest
  | '\'' :: rest => literal? rest
  | text => match text.span isBareKeyChar with
    | ([], _) => none
    | answer => some answer

-- The parts of a key, of at most `fuel` parts, with blanks around each.
def keyWithin? : Nat → List Char → Option (List Key × List Char)
  | 0, _ => none
  | fuel + 1, text => do
    let (key, rest) ← simpleKey? (skipBlanks text)
    match skipBlanks rest with
    | '.' :: rest =>
      let (keys, rest) ← keyWithin? fuel rest
      return (key :: keys, rest)
    | rest => return ([key], rest)

def key? (text : List Char) : Option (List Key × List Char) := keyWithin? (depthLimit - 1) text

-- A key and the mark of an assignment.
def target? (text : List Char) : Option (List Key × List Char) := do
  let (keys, rest) ← key? text
  match rest with
  | '=' :: rest => return (keys, skipBlanks rest)
  | _ => none

-- Assigns to a key of several parts.
def assignKeys (keys : List Key) (value : Toml) (fields : Fields) : Option Fields :=
  match keys.getLast? with
  | some key => assign keys.dropLast key value fields
  | none => none

/-! ## 3. Values -/

mutual

-- A value with at most `depth` levels of arrays and inline tables.
def valueWithin? : Nat → Nat → List Char → Option (Toml × List Char)
  | 0, _, _ => none
  | fuel + 1, depth, text => match text with
    | '"' :: _ | '\'' :: _ => (string? text).map fun (text, rest) => (string text, rest)
    | '[' :: rest => match depth with
      | 0 => none
      | depth + 1 => (itemsWithin? fuel depth rest).map fun (items, rest) => (array items, rest)
    | '{' :: rest => match depth with
      | 0 => none
      | depth + 1 => match skipBlanks rest with
        | '}' :: rest => some (inline [], rest)
        | rest => (fieldsWithin? fuel depth [] rest).map fun (fields, rest) => (inline fields, rest)
    | text =>
      let (run, rest) := scalarRun text
      (scalar? run).map (·, rest)

-- The items up to the closing bracket; a comma may come before it.
def itemsWithin? : Nat → Nat → List Char → Option (List Toml × List Char)
  | 0, _, _ => none
  | fuel + 1, depth, text => match skipFiller text with
    | ']' :: rest => some ([], rest)
    | rest => do
      let (item, rest) ← valueWithin? fuel depth rest
      match skipFiller rest with
      | ',' :: rest =>
        let (items, rest) ← itemsWithin? fuel depth rest
        return (item :: items, rest)
      | ']' :: rest => return ([item], rest)
      | _ => none

-- The fields up to the closing brace, added to `fields`.
def fieldsWithin? : Nat → Nat → Fields → List Char → Option (Fields × List Char)
  | 0, _, _, _ => none
  | fuel + 1, depth, fields, text => do
    let (keys, rest) ← target? text
    let (value, rest) ← valueWithin? fuel depth rest
    let fields ← assignKeys keys value fields
    match skipBlanks rest with
    | ',' :: rest => fieldsWithin? fuel depth fields rest
    | '}' :: rest => return (fields, rest)
    | _ => none

end

/-- A value; every step into it takes a character at least. -/
def value? (text : List Char) : Option (Toml × List Char) :=
  valueWithin? (text.length + 1) (depthLimit - 1) text

/-! ## 4. Lines -/

inductive Line where
  | assignment (keys : List Key) (value : Toml)
  | table (path : List Key)
  | tableItem (path : List Key)

-- A header with its closing brackets.
def header? : List Char → Option (Line × List Char)
  | '[' :: '[' :: rest => do
    let (path, rest) ← key? rest
    match rest with
    | ']' :: ']' :: rest => return (.tableItem path, rest)
    | _ => none
  | '[' :: rest => do
    let (path, rest) ← key? rest
    match rest with
    | ']' :: rest => return (.table path, rest)
    | _ => none
  | _ => none

def assignment? (text : List Char) : Option (Line × List Char) := do
  let (keys, rest) ← target? text
  let (value, rest) ← value? rest
  return (.assignment keys value, rest)

-- The lines of a document that has at most `fuel` of them.
def linesWithin? : Nat → List Char → Option (List Line)
  | 0, _ => none
  | fuel + 1, text => match skipBlanks text with
    | [] => some []
    | c :: rest =>
      if c = '#' ∨ c = '\n' ∨ c = '\r' then lineEnd? (c :: rest) >>= linesWithin? fuel
      else do
        let (line, rest) ← if c = '[' then header? (c :: rest) else assignment? (c :: rest)
        let rest ← lineEnd? rest
        return line :: (← linesWithin? fuel rest)

def lines? (text : List Char) : Option (List Line) := linesWithin? (text.length + 1) text

/-! ## 5. Documents -/

-- The assignments before the next header, and the lines from that header on.
def splitBody : List Line → List (List Key × Toml) × List Line
  | .assignment keys value :: rest =>
    let (body, rest) := splitBody rest
    ((keys, value) :: body, rest)
  | rest => ([], rest)

-- Adds the assignments of a section.
def assignAll (body : List (List Key × Toml)) (fields : Fields) : Option Fields :=
  body.foldlM (fun fields item => assignKeys item.1 item.2 fields) fields

-- Adds the sections of at most `fuel` headers.
def addSections : Nat → List Line → Fields → Option Fields
  | _, [], fields => some fields
  | 0, _ :: _, _ => none
  | fuel + 1, line :: rest, fields =>
    let (body, rest) := splitBody rest
    let fields? := match line with
      | .table path => defineTable (assignAll body) path fields
      | .tableItem path => appendTable (assignAll body) path fields
      | .assignment keys value => assignKeys keys value fields
    fields? >>= addSections fuel rest

/-- The fields of a document; a mark of byte order in front is dropped. -/
def read? (text : List Char) : Option Fields := do
  let lines ← lines? (match text with
    | '\ufeff' :: rest => rest
    | text => text)
  let (body, rest) := splitBody lines
  let fields ← assignAll body []
  addSections rest.length rest fields

end BeaconHistory.Toml
