import ControlPlane.Document.Basic
import ControlPlane.Text.Numeral
import ControlPlane.Toml.Lexical
import ControlPlane.Uuid

/-! # TOML: numbers

Integers of 64 bits with a sign, in four bases, and numbers with a fraction
or an exponent. Digits may be grouped by underscores, each between two
digits. -/
namespace ControlPlane.Toml

/-! ## Digits -/

/-- Further digits, each behind an underscore or not. -/
def moreDigits (isDigit : Char → Bool) : Scan (List Char)
  | '_' :: c :: cs =>
    if isDigit c then
      (moreDigits isDigit cs).map fun (read, rest) => (c :: read, rest)
    else none
  | ['_'] => none
  | c :: cs =>
    if isDigit c then
      (moreDigits isDigit cs).map fun (read, rest) => (c :: read, rest)
    else some ([], c :: cs)
  | [] => some ([], [])

/-- One or more digits. -/
def digits (isDigit : Char → Bool) : Scan (List Char)
  | c :: cs => if isDigit c then moreDigits isDigit (c :: cs) else none
  | [] => none

/-- A decimal digit. -/
def isDecimal (c : Char) : Bool := (Text.digit? c).isSome

/-- Decimal digits without a leading zero; zero itself is one digit. -/
def wholeDigits : Scan (List Char)
  | '0' :: cs => some (['0'], cs)
  | cs => digits isDecimal cs

/-- The number spelled by digits of a base up to sixteen. -/
def valueOf (base : Nat) (ds : List Char) : Nat :=
  ds.foldl (fun n c => base * n + (Uuid.hexDigit? c).getD 0) 0

/-- A sign, or nothing. Returns whether it is a minus. -/
def sign : List Char → Bool × List Char
  | '+' :: cs => (false, cs)
  | '-' :: cs => (true, cs)
  | cs => (false, cs)

/-! ## Integers -/

/-- An integer, if it has at most 64 bits. -/
def int64? (isNegative : Bool) (n : Nat) : Option Document :=
  if isNegative then if n ≤ 1 <<< 63 then some (.int (-n)) else none
  else if n < 1 <<< 63 then some (.int n) else none

/-- An integer in a base other than ten. -/
def baseInteger (base : Nat) (isDigit : Char → Bool) : Scan Document :=
  fun cs => do
    let (ds, rest) ← digits isDigit cs
    return (← int64? false (valueOf base ds), rest)

/-- An integer. -/
def integer : Scan Document
  | '0' :: 'x' :: cs => baseInteger 16 (fun c => (Uuid.hexDigit? c).isSome) cs
  | '0' :: 'o' :: cs => baseInteger 8 (fun c => '0' ≤ c && c ≤ '7') cs
  | '0' :: 'b' :: cs => baseInteger 2 (fun c => c = '0' || c = '1') cs
  | cs => do
    let (isNegative, cs) := sign cs
    let (ds, rest) ← wholeDigits cs
    return (← int64? isNegative (valueOf 10 ds), rest)

/-! ## Fractions and exponents -/

/-- A decimal number `mantissa * 10 ^ exponent`. -/
structure Decimal where
  isNegative : Bool
  mantissa : Nat
  exponent : Int
deriving DecidableEq, Repr

/-- The least number that is rounded to infinity in 64 bits. -/
def infinityBound : Nat := 1 <<< 1024 - 1 <<< 970

/-- Whether a number is too large for 64 bits. Its order of magnitude
decides unless it is that of the bound. -/
def Decimal.overflows (d : Decimal) : Bool :=
  if d.mantissa = 0 then false
  else
    let order := (Nat.toDigits 10 d.mantissa).length + d.exponent
    if order < 309 then false
    else if 309 < order then true
    else if 0 ≤ d.exponent then
      infinityBound ≤ d.mantissa * Nat.pow 10 d.exponent.toNat
    else infinityBound * Nat.pow 10 (-d.exponent).toNat ≤ d.mantissa

/-- The digits behind a point. -/
def fraction : Scan (List Char)
  | '.' :: cs => digits isDecimal cs
  | _ => none

/-- An exponent. -/
def exponent : Scan Int
  | c :: cs =>
    if c = 'e' || c = 'E' then do
      let (isNegative, cs) := sign cs
      let (ds, rest) ← digits isDecimal cs
      let n : Int := valueOf 10 ds
      return (if isNegative then -n else n, rest)
    else none
  | [] => none

/-- A decimal number with a fraction, an exponent or both. -/
def decimal : Scan Decimal := fun cs => do
  let (isNegative, cs) := sign cs
  let (whole, cs) ← wholeDigits cs
  match fraction cs with
  | some (places, cs) =>
    let (e, cs) := (exponent cs).getD (0, cs)
    return (⟨isNegative, valueOf 10 (whole ++ places), e - places.length⟩, cs)
  | none =>
    let (e, cs) ← exponent cs
    return (⟨isNegative, valueOf 10 whole, e⟩, cs)

/-- The words for what is no number proper. -/
def specialWord : Scan Unit := fun cs =>
  match (sign cs).2 with
  | 'i' :: 'n' :: 'f' :: cs => some ((), cs)
  | 'n' :: 'a' :: 'n' :: cs => some ((), cs)
  | _ => none

/-- A number that is no integer. Only a positive one can be too large. -/
def real : Scan Document := fun cs =>
  match decimal cs with
  | some (d, rest) =>
    if d.overflows && !d.isNegative then none else some (.real, rest)
  | none => (specialWord cs).map fun (_, rest) => (.real, rest)

end ControlPlane.Toml
