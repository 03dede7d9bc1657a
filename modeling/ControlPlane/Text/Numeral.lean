/-! # Numerals

Reading a number below a bound. A numeral is a non-empty run of decimal
digits, behind a plus sign or not. A text is read from the left, so the
first fault decides what is wrong with it. -/
namespace ControlPlane.Text

/-- What is wrong with a numeral. -/
inductive NumeralDefect where
  /-- The text is empty. -/
  | empty
  /-- A character is no digit, or there is nothing behind the sign. -/
  | invalidDigit
  /-- The number is too large. -/
  | overflow
deriving DecidableEq, Repr

/-- The wording of a numeral's defect. -/
def NumeralDefect.message : NumeralDefect → String
  | empty => "cannot parse integer from empty string"
  | invalidDigit => "invalid digit found in string"
  | overflow => "number too large to fit in target type"

/-- The value of a decimal digit. -/
def digit? (c : Char) : Option Nat :=
  if '0' ≤ c ∧ c ≤ '9' then some (c.toNat - '0'.toNat) else none

/-- Reads on from the number `n` spelled so far. -/
def readDigits (bound : Nat) : Nat → List Char → Except NumeralDefect Nat
  | n, [] => .ok n
  | n, c :: cs =>
    match digit? c with
    | none => .error .invalidDigit
    | some d =>
      if bound ≤ 10 * n + d then .error .overflow
      else readDigits bound (10 * n + d) cs

/-- The number below `bound` that a text spells. -/
def numeral (bound : Nat) (s : String) : Except NumeralDefect Nat :=
  match s.toList with
  | [] => .error .empty
  | ['+'] => .error .invalidDigit
  | '+' :: cs => readDigits bound 0 cs
  | cs => readDigits bound 0 cs

/-- A number of 32 bits. -/
def numeral32 : String → Except NumeralDefect Nat := numeral (1 <<< 32)

/-- A number of 64 bits. -/
def numeral64 : String → Except NumeralDefect Nat := numeral (1 <<< 64)

theorem readDigits_lt {bound n m : Nat} {cs : List Char} (hn : n < bound)
    (h : readDigits bound n cs = .ok m) : m < bound := by
  induction cs generalizing n with
  | nil => exact Except.ok.inj h ▸ hn
  | cons c cs ih =>
    simp only [readDigits] at h
    split at h
    · cases h
    · split at h
      · cases h
      · exact ih (by omega) h

theorem numeral_lt {bound m : Nat} {s : String} (hb : 0 < bound)
    (h : numeral bound s = .ok m) : m < bound := by
  simp only [numeral] at h
  split at h
  · cases h
  · cases h
  · exact readDigits_lt hb h
  · exact readDigits_lt hb h

end ControlPlane.Text
