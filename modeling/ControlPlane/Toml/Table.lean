import ControlPlane.Document.Basic

/-! # TOML: tables under construction

A table of a file comes about in one of three ways, which decides who may
still add to it. A header defines a table once. A table that was only
passed on the way to another one may still be defined by a header. A table
that comes from dotted keys is open to further dotted keys only. -/
namespace ControlPlane.Toml

/-- How a table came about. -/
inductive Origin where
  /-- A header, or it stands in braces. -/
  | header
  /-- It lies on the way to the table of a header. -/
  | passed
  /-- It lies on the way of a dotted key. -/
  | dotted
deriving DecidableEq, Repr

/-- What stands under a key. -/
inductive Node where
  | value (value : Document)
  | table (origin : Origin) (fields : List (String × Node))
  /-- A list of tables, each with a header of its own. -/
  | rows (rows : List (List (String × Node)))
deriving Inhabited

/-- The fields of a table. -/
abbrev Fields := List (String × Node)

namespace Fields

/-- Puts a node in the place of the one under a key. -/
def replace (fields : Fields) (key : String) (node : Node) : Fields :=
  fields.map fun (k, n) => if k = key then (k, node) else (k, n)

/-- Changes the table at the end of a path, and returns what `change`
returns beside it. Missing tables on the way are made. A path leads through
the last row of a list of tables. Dotted keys do not lead into tables that
have a header. -/
def change {α : Type} (byDots : Bool)
    (f : Origin → Fields → Option (Fields × α)) :
    List String → Origin → Fields → Option (Fields × α)
  | [], origin, fields => f origin fields
  | key :: path, _, fields =>
    match fields.lookup key with
    | none => do
      let origin := if byDots then .dotted else .passed
      let (inner, a) ← change byDots f path origin []
      return (fields ++ [(key, .table origin inner)], a)
    | some (.value _) => none
    | some (.table origin inner) => do
      if byDots && origin = .header then
        none
      let (inner, a) ← change byDots f path origin inner
      return (fields.replace key (.table origin inner), a)
    | some (.rows rows) => do
      let row ← rows.getLast?
      let (row, a) ← change byDots f path .header row
      return (fields.replace key (.rows (rows.dropLast ++ [row])), a)

/-- Adds a value under a dotted key, which has to be new. A key with dots
does not add to a table that comes from headers alone. -/
def insert (fields : Fields) (path : List String) (key : String)
    (value : Document) : Option Fields :=
  let add (origin : Origin) (inner : Fields) : Option (Fields × Unit) :=
    let isMixed := decide (origin = .dotted) == path.isEmpty
    if isMixed || (inner.lookup key).isSome then none
    else some (inner ++ [(key, .value value)], ())
  (fields.change true add path .header).map (·.1)

end Fields

/-! ## Finished tables -/

mutual

/-- The data of a node. -/
def Node.toDocument : Node → Document
  | .value v => v
  | .table _ fields => .table (fieldsToDocument fields)
  | .rows rows => .list (rowsToDocument rows)

/-- The data of the fields of a table. -/
def fieldsToDocument : List (String × Node) → List (String × Document)
  | [] => []
  | (key, node) :: rest => (key, node.toDocument) :: fieldsToDocument rest

/-- The data of the rows of a list of tables. -/
def rowsToDocument : List (List (String × Node)) → List Document
  | [] => []
  | row :: rest => .table (fieldsToDocument row) :: rowsToDocument rest

end

end ControlPlane.Toml
