/-!
# Toml — the values of a TOML document

A table remembers how it came about, because that decides what may still be added to it: a table
named by a header is complete for dotted keys, one implied by a longer header may still get a header of
its own, and one made by a dotted key may get more dotted keys.
-/

namespace BeaconHistory

abbrev Toml.Key := List Char

/-- How a table came about. -/
inductive Toml.Origin where
  | header
  | implied
  | dotted
deriving DecidableEq, Repr

inductive Toml where
  | string (text : List Char)
  | integer (value : Int)
  -- A number with a fraction or an exponent, or one of the special ones, as it is spelled.
  | float (spelling : List Char)
  | boolean (value : Bool)
  -- A date, a time or both, as it is spelled.
  | moment (spelling : List Char)
  | array (items : List Toml)
  -- A table written as a value.
  | inline (fields : List (Toml.Key × Toml))
  | table (origin : Toml.Origin) (fields : List (Toml.Key × Toml))
  -- An array of tables, the latest first.
  | tables (latestFirst : List (List (Toml.Key × Toml)))

namespace Toml

abbrev Fields := List (Key × Toml)

def find? (fields : Fields) (key : Key) : Option Toml := fields.lookup key

-- Replaces what `key` holds, or adds it at the end, if `change` allows it.
def update (key : Key) (change : Option Toml → Option Toml) : Fields → Option Fields
  | [] => (change none).map fun v => [(key, v)]
  | (k, v) :: rest =>
    if k = key then (change (some v)).map fun w => (k, w) :: rest
    else (update key change rest).map ((k, v) :: ·)

def addField (key : Key) (value : Toml) : Fields → Option Fields :=
  update key fun
    | none => some value
    | some _ => none

/-- Adds a field below a path of dotted keys.  The tables on the path are made by dotted keys alone,
except that the way may lead through the latest of an array of tables or an implied table. -/
def addBelow (key : Key) (value : Toml) : List Key → Origin → Fields → Option Fields
  | [], origin, fields => if origin = .dotted then addField key value fields else none
  | k :: path, _, fields => fields |> update k fun
    | none => (addBelow key value path .dotted []).map (table .dotted)
    | some (table .header _) => none
    | some (table origin inner) => (addBelow key value path origin inner).map (table origin)
    | some (tables (latest :: earlier)) =>
      (addBelow key value path .header latest).map fun inner => tables (inner :: earlier)
    | some _ => none

-- Adds the field that a dotted key names.
def assign (path : List Key) (key : Key) (value : Toml) (fields : Fields) : Option Fields :=
  match path with
  | [] => addField key value fields
  | _ :: _ => addBelow key value path .header fields

/-- Follows a header into the table that holds its last key; missing tables are implied. -/
def enter (last : Key → Fields → Option Fields) : List Key → Fields → Option Fields
  | [], _ => none
  | [key], fields => last key fields
  | k :: path, fields => fields |> update k fun
    | none => (enter last path []).map (table .implied)
    | some (table origin inner) => (enter last path inner).map (table origin)
    | some (tables (latest :: earlier)) =>
      (enter last path latest).map fun inner => tables (inner :: earlier)
    | some _ => none

-- Defines the table of a header, which is new or was only implied.
def defineTable (body : Fields → Option Fields) : List Key → Fields → Option Fields :=
  enter fun key => update key fun
    | none => (body []).map (table .header)
    | some (table .implied inner) => (body inner).map (table .header)
    | some _ => none

-- Appends a table to the array of tables of a header.
def appendTable (body : Fields → Option Fields) : List Key → Fields → Option Fields :=
  enter fun key => update key fun
    | none => (body []).map fun inner => tables [inner]
    | some (tables earlier) => (body []).map fun inner => tables (inner :: earlier)
    | some _ => none

end Toml

end BeaconHistory
