import ControlPlane.Document.Basic
import ControlPlane.Uuid

/-! # Writing documents as JSON

Every item and every field stands on a line of its own, indented by two
blanks for each level. Empty lists and tables are written in one line. -/
namespace ControlPlane.Document

/-! ## Texts -/

/-- A character within quotes. Quotes, backslashes and control characters
are escaped. -/
def escapeChar (c : Char) : List Char :=
  match c with
  | '"' => ['\\', '"']
  | '\\' => ['\\', '\\']
  | '\x08' => ['\\', 'b']
  | '\t' => ['\\', 't']
  | '\n' => ['\\', 'n']
  | '\x0c' => ['\\', 'f']
  | '\r' => ['\\', 'r']
  | c =>
    if c < ' ' then '\\' :: 'u' :: Uuid.hexDigits c.toNat 4 else [c]

/-- A text within quotes. -/
def quote (s : String) : String :=
  "\"" ++ String.ofList (s.toList.flatMap escapeChar) ++ "\""

/-! ## Layout -/

/-- A line break, and the indentation of a level. -/
def lineBreak (level : Nat) : String :=
  "\n" ++ String.ofList (List.replicate (2 * level) ' ')

mutual

/-- Writes a document at a level of indentation. Values that were not kept
are written as null. -/
def writeJson (level : Nat) : Document → String
  | .null | .real | .moment => "null"
  | .bool b => if b then "true" else "false"
  | .int n => toString n
  | .text s => quote s
  | .list [] => "[]"
  | .list items =>
    "[" ++ writeItems (level + 1) items ++ lineBreak level ++ "]"
  | .table [] => "\x7b\x7d"
  | .table fields =>
    "\x7b" ++ writeFields (level + 1) fields ++ lineBreak level ++ "\x7d"

/-- Writes the items of a list, each on a line of its own. -/
def writeItems (level : Nat) : List Document → String
  | [] => ""
  | [item] => lineBreak level ++ writeJson level item
  | item :: items =>
    lineBreak level ++ writeJson level item ++ "," ++ writeItems level items

/-- Writes the fields of a table, each on a line of its own. -/
def writeFields (level : Nat) : List (String × Document) → String
  | [] => ""
  | [(key, value)] =>
    lineBreak level ++ quote key ++ ": " ++ writeJson level value
  | (key, value) :: fields =>
    lineBreak level ++ quote key ++ ": " ++ writeJson level value ++ "," ++
      writeFields level fields

end

/-- The JSON text of a document. -/
def toJson (d : Document) : String := writeJson 0 d

end ControlPlane.Document
