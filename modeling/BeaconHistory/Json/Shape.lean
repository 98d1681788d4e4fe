import BeaconHistory.Json.Basic

/-!
# Json.Shape — what a reader wants where

Most places of a document are read alike, whatever is made of them later.  A list of a fixed count of
bytes is not: its reader stops counting when it has them all.  A shape tells where such lists are
wanted; the shape of a container gives the shapes of what is inside.

A record, whose values have names, is written as an object.  It is read from an object, where fields come
in any order, a known field comes at most once and other fields are skipped, or from an array, where the
values come in the order of the names and the last ones may be left out.
-/

namespace BeaconHistory.Json

/-! ## 1. Shapes -/

inductive Shape where
  | any
  -- A list of exactly `count` bytes.
  | bytes (count : Nat)
  | list (item : Shape)
  -- A record, written as an object or as the array of its values.
  | record (fields : List (String × Shape))

namespace Shape

-- The shape of the first item of an array.
def item : Shape → Shape
  | list s => s
  | record ((_, s) :: _) => s
  | _ => any

-- The shape of an array without its first item.
def later : Shape → Shape
  | bytes count => bytes (count - 1)
  | record fields => record fields.tail
  | s => s

-- Whether the reader of an array wants no more items.
def isFull : Shape → Bool
  | bytes 0 => true
  | _ => false

-- The shape of a field of an object.
def field (name : Text) : Shape → Shape
  | record fields => ((fields.find? fun f => name = some f.1.toList).map (·.2)).getD any
  | _ => any

end Shape

/-! ## 2. Records -/

def named (fields : List (Text × Json)) (name : String) : List Json :=
  fields.filterMap fun (key, value) => if key = some name.toList then some value else none

def atMostOne? : List Json → Option (Option Json)
  | [] => some none
  | [value] => some (some value)
  | _ => none

-- The value given to each of the fields `wanted`, if there is one.
def record? (wanted : List (String × Shape)) : Json → Option (List (Option Json))
  | object fields =>
    -- The name of a skipped field still has to be a text.
    if fields.all (·.1.isSome) then wanted.mapM fun field => atMostOne? (named fields field.1) else none
  | array items =>
    if items.length ≤ wanted.length then
      some (items.map some ++ List.replicate (wanted.length - items.length) none)
    else none
  | _ => none

def record (fields : List (String × Json)) : Json :=
  object (fields.map fun (name, value) => (some name.toList, value))

end BeaconHistory.Json
