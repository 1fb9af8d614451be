import StyleAudit.Settings.Value

/-!
# TOML tables

How headers and dotted keys build up the tables of a document. A table is opened by one header
only; dotted keys extend only tables that dotted keys have made; a key is set once.
-/

namespace StyleAudit.Toml

open Settings (Value)

/-- How a table came to be. -/
inductive Origin
  /-- By its own header. -/
  | header
  /-- By the header of a table inside it. -/
  | implied
  /-- By a dotted key. -/
  | dotted
  deriving Repr, DecidableEq

/-- What a key holds. -/
inductive Node
  | leaf (value : Value)
  | table (origin : Origin) (fields : List (String × Node))
  /-- An array of tables, by its last table. -/
  | tables (last : List (String × Node))
  deriving Repr

abbrev Fields := List (String × Node)

/-- Puts a node at a key, in place of what was there. -/
def replace (key : String) (node : Node) (fields : Fields) : Fields :=
  fields.filter (·.1 ≠ key) ++ [(key, node)]

/-- Sets `key` in the table that a dotted `path` leads to. -/
def insert (path : List String) (key : String) (value : Value) (fields : Fields) :
    Option Fields :=
  match path with
  | [] => if (fields.lookup key).isSome then none else some (replace key (.leaf value) fields)
  | first :: path =>
    match fields.lookup first with
    | none => (insert path key value []).map fun inner =>
        replace first (.table .dotted inner) fields
    | some (.leaf _) => none
    | some (.table origin inner) =>
      if origin = .header || (path.isEmpty && origin ≠ .dotted) then none
      else (insert path key value inner).map fun inner =>
        replace first (.table origin inner) fields
    | some (.tables last) =>
      if path.isEmpty then none
      else (insert path key value last).map fun last => replace first (.tables last) fields

/-- Changes the table at the end of a header's path, making tables on the way. -/
def descend (change : String → Fields → Option Fields) :
    (first : String) → (path : List String) → Fields → Option Fields
  | last, [], fields => change last fields
  | first, next :: path, fields =>
    match fields.lookup first with
    | none => (descend change next path []).map fun inner =>
        replace first (.table .implied inner) fields
    | some (.leaf _) => none
    | some (.table origin inner) => (descend change next path inner).map fun inner =>
        replace first (.table origin inner) fields
    | some (.tables last) => (descend change next path last).map fun last =>
        replace first (.tables last) fields

def openTable (key : String) (fields : Fields) : Option Fields :=
  match fields.lookup key with
  | none => some (replace key (.table .header []) fields)
  | some (.table .implied inner) => some (replace key (.table .header inner) fields)
  | some _ => none

/-- Adds a table to the array `key`. -/
def openElement (key : String) (fields : Fields) : Option Fields :=
  match fields.lookup key with
  | none | some (.tables _) => some (replace key (.tables []) fields)
  | some _ => none

/-- Sets a key in the open table `key`. -/
def insertInto (path : List String) (name : String) (value : Value) (key : String)
    (fields : Fields) : Option Fields :=
  match fields.lookup key with
  | some (.table origin inner) =>
    (insert path name value inner).map fun inner => replace key (.table origin inner) fields
  | some (.tables last) =>
    (insert path name value last).map fun last => replace key (.tables last) fields
  | _ => none

end StyleAudit.Toml
