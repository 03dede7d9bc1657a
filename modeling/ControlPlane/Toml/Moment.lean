import ControlPlane.Document.Basic
import ControlPlane.Text.Numeral
import ControlPlane.Toml.Lexical

/-! # TOML: dates and times

A date, a time, or both, and then with an offset or not. -/
namespace ControlPlane.Toml

/-- A number of exactly so many digits. -/
def fixedNumber : Nat → Nat → Scan Nat
  | 0, n, cs => some (n, cs)
  | _ + 1, _, [] => none
  | width + 1, n, c :: cs =>
    match Text.digit? c with
    | some d => fixedNumber width (10 * n + d) cs
    | none => none

/-- A number of two digits between bounds. -/
def pair (least greatest : Nat) : Scan Nat := fun cs => do
  let (n, rest) ← fixedNumber 2 0 cs
  if least ≤ n ∧ n ≤ greatest then return (n, rest) else none

/-- A given character. -/
def mark (c : Char) : List Char → Option (List Char)
  | x :: cs => if x = c then some cs else none
  | [] => none

/-- Whether a year has a leap day. -/
def isLeapYear (year : Nat) : Bool :=
  year % 4 = 0 && (year % 100 ≠ 0 || year % 400 = 0)

/-- The number of days of a month. -/
def daysIn (year month : Nat) : Nat :=
  if month = 2 then if isLeapYear year then 29 else 28
  else if month ∈ [4, 6, 9, 11] then 30
  else 31

/-- What follows a date. -/
def date? (cs : List Char) : Option (List Char) := do
  let (year, cs) ← fixedNumber 4 0 cs
  let cs ← mark '-' cs
  let (month, cs) ← pair 1 12 cs
  let cs ← mark '-' cs
  let (_, cs) ← pair 1 (daysIn year month) cs
  return cs

/-- What follows the fraction of a second, if there is one. -/
def skipSecondFraction : List Char → List Char
  | '.' :: c :: cs =>
    if (Text.digit? c).isSome then
      cs.dropWhile fun c => (Text.digit? c).isSome
    else '.' :: c :: cs
  | cs => cs

/-- What follows a time of day. A minute may have a leap second. -/
def time? (cs : List Char) : Option (List Char) := do
  let (_, cs) ← pair 0 23 cs
  let cs ← mark ':' cs
  let (_, cs) ← pair 0 59 cs
  let cs ← mark ':' cs
  let (_, cs) ← pair 0 60 cs
  return skipSecondFraction cs

/-- What follows an offset of hours and minutes. -/
def offset? (cs : List Char) : Option (List Char) := do
  let (_, cs) ← pair 0 23 cs
  let cs ← mark ':' cs
  let (_, cs) ← pair 0 59 cs
  return cs

/-- What follows an offset, if there is one. -/
def skipOffset : List Char → Option (List Char)
  | 'Z' :: cs => some cs
  | 'z' :: cs => some cs
  | '+' :: cs => offset? cs
  | '-' :: cs => offset? cs
  | cs => some cs

/-- What follows the time behind a date, if there is one. A blank may also
be the end of the value. -/
def skipTime (cs : List Char) : Option (List Char) :=
  match cs with
  | c :: behind =>
    if c = 'T' || c = 't' || c = ' ' then
      match time? behind with
      | some cs => skipOffset cs
      | none => some cs
    else some cs
  | [] => some []

/-- A date, a time, or both. -/
def moment : Scan Document := fun cs =>
  match date? cs with
  | some cs => (skipTime cs).map (.moment, ·)
  | none => (time? cs).map (.moment, ·)

end ControlPlane.Toml
