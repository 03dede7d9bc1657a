import ControlPlane.Toml.Moment
import ControlPlane.Toml.Number
import ControlPlane.Toml.Quoted
import ControlPlane.Toml.Table

/-! # TOML: keys and values -/
namespace ControlPlane.Toml

/-- The greatest depth to which tables and lists may be nested, and the
least number of parts a key may not have. -/
def depthLimit : Nat := 80

/-! ## Keys -/

/-- A character of a bare key. -/
def isBare (c : Char) : Bool :=
  ('A' ≤ c && c ≤ 'Z') || ('a' ≤ c && c ≤ 'z') || ('0' ≤ c && c ≤ '9') ||
    c = '-' || c = '_'

/-- A key without dots. -/
def simpleKey : Scan String := fun cs =>
  match quotedLine cs with
  | some (key, rest) => some (String.ofList key, rest)
  | none =>
    let key := cs.takeWhile isBare
    if key.isEmpty then none
    else some (String.ofList key, cs.dropWhile isBare)

/-- The parts of a key, at most as many as given. Blanks may stand around
each. -/
def keyParts : Nat → Scan (List String)
  | 0, _ => none
  | limit + 1, cs => do
    let (key, cs) ← simpleKey (skipBlanks cs)
    match skipBlanks cs with
    | '.' :: cs =>
      let (keys, cs) ← keyParts limit cs
      return (key :: keys, cs)
    | cs => return ([key], cs)

/-- A key. -/
def key : Scan (List String) := keyParts (depthLimit - 1)

/-- A key as the path to a table and the key in it. -/
def splitLast (key : List String) : List String × String :=
  (key.dropLast, key.getLast?.getD "")

/-! ## Values -/

/-- A value that is no list and no table. -/
def scalar : Scan Document := fun cs =>
  match cs with
  | 't' :: 'r' :: 'u' :: 'e' :: rest => some (.bool true, rest)
  | 'f' :: 'a' :: 'l' :: 's' :: 'e' :: rest => some (.bool false, rest)
  | '"' :: _ | '\'' :: _ =>
    (quoted cs).map fun (s, rest) => (.text (String.ofList s), rest)
  | _ => (moment cs).or ((real cs).or (integer cs))

/-- The items of a list up to its closing bracket, and what follows. Blanks,
line ends and comments may stand anywhere between, and a comma behind the
last item. -/
def listItems (item : Scan Document) : Nat → Scan (List Document)
  | 0, _ => none
  | fuel + 1, cs => do
    match ← skipSpace? false cs with
    | ']' :: rest => return ([], rest)
    | cs =>
      let (first, cs) ← item cs
      match ← skipSpace? false cs with
      | ']' :: rest => return ([first], rest)
      | ',' :: cs =>
        let (others, rest) ← listItems item fuel cs
        return (first :: others, rest)
      | _ => none

/-- A key with its value. -/
def keyValue (item : Scan Document) : Scan (List String × Document) :=
  fun cs => do
    let (key, cs) ← key cs
    let cs ← mark '=' cs
    let (value, cs) ← item (skipBlanks cs)
    return ((key, value), cs)

/-- The fields of a table in braces up to the closing one, behind those read
so far. They stand on one line, with commas between them only. -/
def inlineFields (item : Scan Document) : Nat → Fields → Scan Fields
  | 0, _, _ => none
  | fuel + 1, fields, cs => do
    let ((key, value), cs) ← keyValue item cs
    let (path, last) := splitLast key
    let fields ← fields.insert path last value
    match skipBlanks cs with
    | '}' :: rest => return (fields, rest)
    | ',' :: cs => inlineFields item fuel fields cs
    | _ => none

/-- A table in braces, behind the opening one. -/
def inlineTable (item : Scan Document) : Scan Document := fun cs =>
  match skipBlanks cs with
  | '}' :: rest => some (.table [], rest)
  | cs => (inlineFields item (cs.length + 1) [] cs).map fun (fields, rest) =>
    (.table (fieldsToDocument fields), rest)

/-- A value in which lists and tables are nested at most to a depth. -/
def valueWithin : Nat → Scan Document
  | 0, cs => scalar cs
  | depth + 1, cs =>
    match cs with
    | '[' :: cs =>
      (listItems (valueWithin depth) (cs.length + 1) cs).map
        fun (items, rest) => (.list items, rest)
    | '\x7b' :: cs => inlineTable (valueWithin depth) cs
    | cs => scalar cs

/-- A value. -/
def value : Scan Document := valueWithin (depthLimit - 1)

end ControlPlane.Toml
