/-! # Documents

Data without a schema, as it stands in a file: texts, numbers, lists and
tables. Records are read from documents field by field. The two file
formats in use agree on what a record looks like, up to two conventions. -/
namespace ControlPlane

/-- A piece of data. Numbers with a fraction or an exponent and points in
time are told apart from the rest, but no record has a field for them, so
their values are not kept. -/
inductive Document where
  | null
  | bool (value : Bool)
  | int (value : Int)
  | real
  | text (value : String)
  | moment
  | list (items : List Document)
  /-- A table has every key once. -/
  | table (fields : List (String × Document))
deriving Inhabited, Repr

namespace Document

/-- What the file formats do not agree on. -/
structure Convention where
  /-- Whether a list read as a record may have more items than the record
  has fields. -/
  allowsSurplus : Bool
  /-- What may stand in the place of the data of a bare name. -/
  isNoData : Document → Bool

/-- The convention of JSON. -/
def Convention.json : Convention where
  allowsSurplus := false
  isNoData
    | null => true
    | _ => false

/-- The convention of TOML. -/
def Convention.toml : Convention where
  allowsSurplus := true
  isNoData
    | list items => items.isEmpty
    | table fields => fields.isEmpty
    | _ => false

/-! ## Plain values -/

/-- A text. -/
def text? : Document → Option String
  | text s => some s
  | _ => none

/-- A number of 32 bits. -/
def word? : Document → Option Nat
  | int n => if 0 ≤ n ∧ n.toNat < 1 <<< 32 then some n.toNat else none
  | _ => none

/-- A list, item by item. -/
def list? {α : Type} (item : Document → Option α) :
    Document → Option (List α)
  | list items => items.mapM item
  | _ => none

/-- A table, value by value. -/
def table? {α : Type} (value : Document → Option α) :
    Document → Option (List (String × α))
  | table fields => fields.mapM fun (key, d) => (value d).map (key, ·)
  | _ => none

/-- A bare name, alone or as the only key of a table. -/
def name? {α : Type} (c : Convention) (ofName : String → Option α) :
    Document → Option α
  | text s => ofName s
  | table [(s, data)] => if c.isNoData data then ofName s else none
  | _ => none

/-! ## Records -/

/-- What a record has for a field. -/
inductive Slot where
  /-- A value. -/
  | given (value : Document)
  /-- Nothing: the key is missing from the table. -/
  | missing
  /-- Nothing: the list has ended before. -/
  | ended
deriving Inhabited, Repr

namespace Slot

variable {α : Type}

/-- A field that has to be there. -/
def required (decode : Document → Option α) : Slot → Option α
  | given d => decode d
  | _ => none

/-- A field that may be null or missing from a table. -/
def optional (decode : Document → Option α) : Slot → Option (Option α)
  | given null => some none
  | given d => (decode d).map some
  | missing => some none
  | ended => none

/-- A field with a default. -/
def withDefault (default : α) (decode : Document → Option α) :
    Slot → Option α
  | given d => decode d
  | _ => some default

end Slot

/-- The slots of a record, read by key from a table or by position from a
list. Other keys are ignored. -/
def slots (c : Convention) (keys : List String) :
    Document → Option (List Slot)
  | table fields =>
    some (keys.map fun key => match fields.lookup key with
      | some d => .given d
      | none => .missing)
  | list items =>
    if items.length ≤ keys.length || c.allowsSurplus then
      some (keys.zipIdx.map fun (_, i) => match items[i]? with
        | some d => .given d
        | none => .ended)
    else none
  | _ => none

/-! ## Writing -/

/-- A text, or null. -/
def ofText? : Option String → Document
  | some s => text s
  | none => null

/-- A number. -/
def ofNat (n : Nat) : Document := int n

end Document

end ControlPlane
