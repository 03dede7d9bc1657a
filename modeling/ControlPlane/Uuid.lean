import Std.Data.TreeMap

/-! # Universally unique ids

A `Uuid` is 128 bits, ordered as the number its bytes spell. It has two
written forms, 32 lowercase hex digits and the hyphenated 8-4-4-4-12, and
is read from these two, from the hyphenated form in braces, and from the
hyphenated form behind `urn:uuid:`. Letters are read in either case. -/
namespace ControlPlane

/-- A 128-bit id. -/
structure Uuid where
  bits : BitVec 128
deriving DecidableEq, Inhabited, Repr

namespace Uuid

/-- The number the bytes spell, most significant byte first. -/
def toNat (u : Uuid) : Nat := u.bits.toNat

/-- The id spelled by a number below `2 ^ 128`; higher bits are dropped. -/
def ofNat (n : Nat) : Uuid := ⟨BitVec.ofNat 128 n⟩

/-- Byte order, which is the order of the numbers spelled. -/
instance : Ord Uuid := ⟨compareOn toNat⟩

theorem toNat_inj {u v : Uuid} : u.toNat = v.toNat ↔ u = v := by
  cases u
  cases v
  simp [toNat, BitVec.toNat_inj]

instance : Std.TransOrd Uuid :=
  inferInstanceAs (Std.TransCmp (compareOn toNat))

instance : Std.LawfulEqOrd Uuid where
  eq_of_compare {u v} h := by
    have h : compare u.toNat v.toNat = .eq := h
    exact toNat_inj.mp (Std.LawfulEqCmp.eq_of_compare h)

/-! ## Random ids -/

/-- The version number carried by an id. -/
def version (u : Uuid) : Nat := (u.bits.extractLsb' 76 4).toNat

/-- The random id of version 4 made from 122 bits of randomness: the
version and the variant take the remaining six. -/
def random (seed : BitVec 122) : Uuid :=
  ⟨seed.extractLsb' 74 48 ++ 4#4 ++ seed.extractLsb' 62 12 ++ 2#2 ++
    seed.extractLsb' 0 62⟩

/-! ## Writing -/

/-- The `width` lowest hex digits of a number, most significant first. -/
def hexDigits (n : Nat) : Nat → List Char
  | 0 => []
  | width + 1 => hexDigits (n / 16) width ++ [Nat.digitChar (n % 16)]

/-- The plain form: 32 lowercase hex digits. -/
def hex (u : Uuid) : String := String.ofList (hexDigits u.toNat 32)

/-- Splits a text into pieces of the given lengths, joined by hyphens. -/
def hyphenate : List Nat → List Char → List Char
  | [], _ => []
  | [n], cs => cs.take n
  | n :: ns, cs => cs.take n ++ '-' :: hyphenate ns (cs.drop n)

/-- The lengths of the groups in the hyphenated form. -/
def groupLengths : List Nat := [8, 4, 4, 4, 12]

/-- The hyphenated form, 8-4-4-4-12. -/
def hyphenated (u : Uuid) : String :=
  String.ofList (hyphenate groupLengths (hexDigits u.toNat 32))

/-! ## Reading -/

/-- The value of a hex digit of either case. -/
def hexDigit? (c : Char) : Option Nat :=
  if '0' ≤ c ∧ c ≤ '9' then some (c.toNat - '0'.toNat)
  else if 'a' ≤ c ∧ c ≤ 'f' then some (c.toNat - 'a'.toNat + 10)
  else if 'A' ≤ c ∧ c ≤ 'F' then some (c.toNat - 'A'.toNat + 10)
  else none

/-- The number spelled by hex digits. -/
def hexNumber? (cs : List Char) : Option Nat :=
  cs.foldlM (fun n c => (hexDigit? c).map (16 * n + ·)) 0

/-- The digits of a hyphenated text, whose groups have the given lengths. -/
def dehyphenate? : List Nat → List Char → Option (List Char)
  | [], cs => if cs.isEmpty then some [] else none
  | [n], cs => if cs.length = n then some cs else none
  | n :: ns, cs =>
    match cs.drop n with
    | '-' :: rest => (dehyphenate? ns rest).map (cs.take n ++ ·)
    | _ => none

/-- What a name for an id of this kind starts with, in any case. -/
def urnScheme : List Char := "urn:uuid:".toList

/-- The text inside a hyphenated form's wrapping, braces or `urn:uuid:`. -/
def unwrap (cs : List Char) : List Char :=
  match cs with
  | '{' :: rest => if rest.getLast? = some '}' then rest.dropLast else cs
  | _ =>
    if (cs.take urnScheme.length).map Char.toLower = urnScheme then
      cs.drop urnScheme.length
    else cs

/-- Reads any of the accepted forms. -/
def parse? (s : String) : Option Uuid := do
  let cs := s.toList
  let digits ←
    if cs.length = 32 then some cs else dehyphenate? groupLengths (unwrap cs)
  (hexNumber? digits).map ofNat

end Uuid

end ControlPlane
