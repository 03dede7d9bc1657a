import Mathlib
import ControlPlane.Text.Numeral

/-!
# Numbers are read back

A number is written with its decimal digits, which are read from the left.
What they spell up to any of them is no larger than the number, so a number
below the bound is read as itself.
-/

namespace ControlPlane

namespace Text

theorem digit?_digitChar : ∀ d < 10, digit? (Nat.digitChar d) = some d := by
  decide

theorem readDigits_append (bound n : Nat) (cs ds : List Char) :
    readDigits bound n (cs ++ ds) =
      (readDigits bound n cs).bind fun m => readDigits bound m ds := by
  induction cs generalizing n with
  | nil => rfl
  | cons c cs ih =>
    simp only [List.cons_append, readDigits]
    split
    · rfl
    · split
      · rfl
      · exact ih _

theorem readDigits_digitChar {bound n d : Nat} (hd : d < 10)
    (hbound : 10 * n + d < bound) :
    readDigits bound n [Nat.digitChar d] = .ok (10 * n + d) := by
  simp only [readDigits, digit?_digitChar d hd]
  rw [if_neg (by omega)]

theorem readDigits_toDigits {bound : Nat} (n : Nat) (hn : n < bound) :
    readDigits bound 0 (Nat.toDigits 10 n) = .ok n := by
  induction n using Nat.strongRecOn with
  | ind n ih =>
    rw [Nat.toDigits_eq_if (by decide)]
    split
    · rename_i hlt
      simpa using readDigits_digitChar (n := 0) hlt (by omega)
    · -- The last digit is read behind the others.
      rw [readDigits_append, ih (n / 10) (by omega) (by omega), Except.bind,
        readDigits_digitChar (Nat.mod_lt n (by decide)) (by omega)]
      congr 1
      omega

theorem toList_toString (n : Nat) :
    (toString n).toList = Nat.toDigits 10 n := by
  rw [Nat.toString_eq_repr, Nat.toList_repr]

theorem isDigit_of_mem_toString {n : Nat} {c : Char}
    (hc : c ∈ (toString n).toList) : c.isDigit = true := by
  rw [toList_toString] at hc
  exact Nat.isDigit_of_mem_toDigits (by decide) (by decide) hc

/-- A number below the bound is read from its digits. -/
theorem numeral_toString {bound n : Nat} (hn : n < bound) :
    numeral bound (toString n) = .ok n := by
  have hread := readDigits_toDigits n hn
  have hplus : '+' ∉ (toString n).toList :=
    fun h => absurd (isDigit_of_mem_toString h) (by decide)
  have hne : (toString n).toList ≠ [] := by
    rw [toList_toString]
    exact Nat.toDigits_ne_nil
  rw [← toList_toString] at hread
  unfold numeral
  split
  · contradiction
  · simp_all
  · simp_all
  · exact hread

theorem colon_not_mem_toString (n : Nat) : ':' ∉ (toString n).toList :=
  fun h => absurd (isDigit_of_mem_toString h) (by decide)

/-! ## Other bounds -/

theorem readDigits_mono {bound bound' n m : Nat} (hle : bound ≤ bound')
    {cs : List Char} (h : readDigits bound n cs = .ok m) :
    readDigits bound' n cs = .ok m := by
  induction cs generalizing n with
  | nil => exact h
  | cons c cs ih =>
    simp only [readDigits] at h ⊢
    split at h
    · cases h
    · split at h
      · cases h
      · rw [if_neg (by omega)]
        exact ih h

/-- A larger bound accepts the numerals of a smaller one. -/
theorem numeral_mono {bound bound' m : Nat} (hle : bound ≤ bound')
    {s : String} (h : numeral bound s = .ok m) : numeral bound' s = .ok m := by
  unfold numeral at h ⊢
  split at h
  · cases h
  · cases h
  · exact readDigits_mono hle h
  · exact readDigits_mono hle h

/-- A number is read as itself, if it is not too large. -/
theorem numeral_toString_eq_ok_iff {bound : Nat} (hbound : 0 < bound)
    {n m : Nat} : numeral bound (toString n) = .ok m ↔ n < bound ∧ m = n := by
  constructor
  · intro h
    have hlarge := numeral_mono (le_max_left bound (n + 1)) h
    rw [numeral_toString (lt_of_lt_of_le n.lt_succ_self (le_max_right _ _))]
      at hlarge
    obtain rfl := Except.ok.inj hlarge
    exact ⟨numeral_lt hbound h, rfl⟩
  · rintro ⟨hn, rfl⟩
    exact numeral_toString hn

end Text

end ControlPlane
