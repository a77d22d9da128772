/-!
# Tables

A document is a table of values and further tables. Every table is written in one way, in one place:
under a header of its own, by dotted keys, or only as part of the path of other headers.
-/

namespace WordC.Toml

/-- A value. Settings are integers, booleans and texts, so that other values are not told apart. -/
inductive Value where
  | integer (value : Int)
  | boolean (value : Bool)
  | text (value : String)
  | other
deriving DecidableEq

/-- How a table came to be. -/
inductive Origin where
  /-- By a header of its own. -/
  | header
  /-- As part of the path of a header. -/
  | path
  /-- By a dotted key. -/
  | dotted
deriving DecidableEq

inductive Entry where
  | value (value : Value)
  | table (origin : Origin) (entries : List (String × Entry))
  /-- An array of tables, of which only the last one can grow. -/
  | array (last : List (String × Entry))

abbrev Entries := List (String × Entry)

namespace Entries

/-- Gives a key its entry, the first one or another. -/
def put (entries : Entries) (key : String) (entry : Entry) : Entries :=
  if (entries.lookup key).isSome then
    entries.map fun (name, old) => if name == key then (name, entry) else (name, old)
  else entries ++ [(key, entry)]

/-- Adds a value under a dotted key whose last part is `key`. Keys are given once, and dotted keys
add only to tables that they have made themselves. -/
def addValue? (entries : Entries) (path : List String) (key : String) (value : Value) :
    Option Entries :=
  match path with
  | [] => if (entries.lookup key).isSome then none else some (entries.put key (.value value))
  | name :: rest =>
      match entries.lookup name with
      | none => (addValue? [] rest key value).map fun new => entries.put name (.table .dotted new)
      | some (.table origin old) =>
          if origin = .header ∨ (rest.isEmpty ∧ origin ≠ .dotted) then none
          else (addValue? old rest key value).map fun new => entries.put name (.table origin new)
      | some (.array last) =>
          if rest.isEmpty then none
          else (addValue? last rest key value).map fun new => entries.put name (.array new)
      | some (.value _) => none

/-- Changes the table that a path of headers leads to. Tables on the way are made where they are
missing; of an array of tables the last one is meant. -/
def modify? (change : Entries → Option Entries) : List String → Entries → Option Entries
  | [], entries => change entries
  | name :: rest, entries =>
      match entries.lookup name with
      | none => (modify? change rest []).map fun new => entries.put name (.table .path new)
      | some (.table origin old) =>
          (modify? change rest old).map fun new => entries.put name (.table origin new)
      | some (.array last) =>
          (modify? change rest last).map fun new => entries.put name (.array new)
      | some (.value _) => none

/-- Opens a table under a header. It may have been part of a path before. -/
def openTable? (path : List String) (key : String) : Entries → Option Entries :=
  modify? (fun entries =>
    match entries.lookup key with
    | none => some (entries.put key (.table .header []))
    | some (.table .path old) => some (entries.put key (.table .header old))
    | some _ => none) path

/-- Opens a further table of an array of tables. -/
def openArray? (path : List String) (key : String) : Entries → Option Entries :=
  modify? (fun entries =>
    match entries.lookup key with
    | none | some (.array _) => some (entries.put key (.array []))
    | some _ => none) path

end Entries

end WordC.Toml
