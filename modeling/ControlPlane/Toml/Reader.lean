import ControlPlane.Toml.Value

/-! # TOML: files

A file is a sequence of fields and headers. A header `[a.b]` opens a table,
a header `[[a.b]]` a further row of a list of tables; the fields up to the
next header belong to it. The fields in front of the first header belong to
the file itself. -/
namespace ControlPlane.Toml

/-! ## Statements -/

/-- One statement of a file. -/
inductive Statement where
  | field (path : List String) (key : String) (value : Document)
  | tableHeader (path : List String) (key : String)
  | rowHeader (path : List String) (key : String)

/-- A statement with the rest of its line. -/
def statement : Scan Statement
  | '[' :: '[' :: cs => do
    let (k, cs) ← key cs
    let cs ← mark ']' cs
    let cs ← mark ']' cs
    let (path, last) := splitLast k
    return (.rowHeader path last, ← lineEnd? cs)
  | '[' :: cs => do
    let (k, cs) ← key cs
    let cs ← mark ']' cs
    let (path, last) := splitLast k
    return (.tableHeader path last, ← lineEnd? cs)
  | cs => do
    let ((k, value), cs) ← keyValue value cs
    let (path, last) := splitLast k
    return (.field path last value, ← lineEnd? cs)

/-- All statements of a text. Every round consumes at least one
character. -/
def statements : Nat → List Char → Option (List Statement)
  | 0, _ => none
  | fuel + 1, cs => do
    match ← skipSpace? false cs with
    | [] => return []
    | cs =>
      let (first, cs) ← statement cs
      return first :: (← statements fuel cs)

/-! ## Assembly -/

/-- A file being put together. -/
structure Assembly where
  root : Fields := []
  /-- The fields of the table that is open. -/
  current : Fields := []
  /-- The path and the key of the open table; none for the file itself. -/
  place : Option (List String × String) := none
  /-- Whether the open table is a row of a list. -/
  isRow : Bool := false

namespace Assembly

/-- Puts the open table into its place. -/
def close (a : Assembly) : Option Fields :=
  match a.place with
  | none => some a.current
  | some (path, key) =>
    let put (_ : Origin) (fields : Fields) : Option (Fields × Unit) :=
      match fields.lookup key with
      | none =>
        let node := if a.isRow then .rows [a.current]
          else .table .header a.current
        some (fields ++ [(key, node)], ())
      | some (.rows rows) =>
        if a.isRow then
          some (fields.replace key (.rows (rows ++ [a.current])), ())
        else none
      | _ => none
    (a.root.change false put path .header).map (·.1)

/-- Opens the table of a header. One that was only passed so far keeps its
fields. -/
def openTable (root : Fields) (path : List String) (key : String) :
    Option Assembly := do
  let take (_ : Origin) (fields : Fields) : Option (Fields × Fields) :=
    match fields.lookup key with
    | none => some (fields, [])
    | some (.table .passed inner) =>
      some (fields.filter (·.1 ≠ key), inner)
    | _ => none
  let (root, current) ← root.change false take path .header
  return { root, current, place := some (path, key) }

/-- Opens a further row of the list of a header. -/
def openRow (root : Fields) (path : List String) (key : String) :
    Option Assembly := do
  let check (_ : Origin) (fields : Fields) : Option (Fields × Unit) :=
    match fields.lookup key with
    | none => some (fields, ())
    | some (.rows _) => some (fields, ())
    | _ => none
  let (root, _) ← root.change false check path .header
  return { root, place := some (path, key), isRow := true }

/-- Adds a statement. -/
def add (a : Assembly) : Statement → Option Assembly
  | .field path key value => do
    return { a with current := ← a.current.insert path key value }
  | .tableHeader path key => do openTable (← a.close) path key
  | .rowHeader path key => do openRow (← a.close) path key

end Assembly

/-! ## Reading -/

/-- The text without the mark that some editors put in front of it. -/
def skipMark : List Char → List Char
  | '\ufeff' :: cs => cs
  | cs => cs

/-- The data of a file. -/
def read? (s : String) : Option Document := do
  let cs := skipMark s.toList
  let all ← statements (cs.length + 1) cs
  let a ← all.foldlM Assembly.add {}
  return .table (fieldsToDocument (← a.close))

end ControlPlane.Toml
