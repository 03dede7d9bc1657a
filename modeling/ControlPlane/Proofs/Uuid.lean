import Mathlib
import ControlPlane.Uuid

/-!
# Ids are read back

The hex digits of a number spell it again, and the hyphens between their
groups are where a reader looks for them. A hyphenated id starts with a hex
digit, so it is not taken for one in braces or behind a scheme.
-/

namespace ControlPlane

namespace Uuid

/-! ## Digits -/

theorem hexDigit?_digitChar :
    ∀ d < 16, hexDigit? (Nat.digitChar d) = some d := by
  decide

@[simp] theorem length_hexDigits (n width : Nat) :
    (hexDigits n width).length = width := by
  induction width generalizing n with
  | zero => rfl
  | succ width ih => simp [hexDigits, ih]

theorem exists_digitChar_of_mem {n width : Nat} {c : Char}
    (hc : c ∈ hexDigits n width) : ∃ d < 16, Nat.digitChar d = c := by
  induction width generalizing n with
  | zero => cases hc
  | succ width ih =>
    rcases List.mem_append.mp hc with hc | hc
    · exact ih hc
    · exact ⟨n % 16, Nat.mod_lt _ (by decide), (List.mem_singleton.mp hc).symm⟩

/-- The digits spell the number, up to what does not fit. -/
theorem hexNumber?_hexDigits (n width : Nat) :
    hexNumber? (hexDigits n width) = some (n % 16 ^ width) := by
  induction width generalizing n with
  | zero => simp [hexNumber?, hexDigits, Nat.mod_one]
  | succ width ih =>
    have hlast := hexDigit?_digitChar (n % 16) (Nat.mod_lt _ (by decide))
    have hsplit : n % 16 ^ (width + 1) =
        16 * (n / 16 % 16 ^ width) + n % 16 := by
      rw [Nat.pow_succ', Nat.mod_mul]
      omega
    unfold hexNumber? at ih ⊢
    rw [hexDigits, List.foldlM_append, ih, hsplit]
    simp [hlast]

/-! ## Hyphens -/

/-- Behind the first group is room for the others. -/
theorem length_drop_group {n m : Nat} {ns : List Nat} {cs : List Char}
    (hcs : cs.length = n + (m :: ns).sum) :
    (cs.drop n).length = m + ns.sum := by
  rw [List.length_drop, hcs, List.sum_cons]
  omega

theorem length_hyphenate {n : Nat} {ns : List Nat} {cs : List Char}
    (hcs : cs.length = n + ns.sum) :
    (hyphenate (n :: ns) cs).length = cs.length + ns.length := by
  induction ns generalizing n cs with
  | nil => simp_all [hyphenate]
  | cons m ns ih =>
    rw [hyphenate, List.length_append, List.length_cons,
      ih (length_drop_group hcs)]
    · simp
      omega
    · simp

/-- The groups are found between the hyphens. -/
theorem dehyphenate?_hyphenate {n : Nat} {ns : List Nat} {cs : List Char}
    (hcs : cs.length = n + ns.sum) :
    dehyphenate? (n :: ns) (hyphenate (n :: ns) cs) = some cs := by
  induction ns generalizing n cs with
  | nil => simp_all [hyphenate, dehyphenate?]
  | cons m ns ih =>
    have hn : (cs.take n).length = n := by
      rw [List.length_take, hcs]
      omega
    rw [hyphenate, dehyphenate?, List.drop_left' hn, List.take_left' hn]
    · simp [ih (length_drop_group hcs)]
    all_goals simp

/-! ## Whole ids -/

theorem unwrap_cons {c : Char} (hbrace : c ≠ '{') (hu : c.toLower ≠ 'u')
    (cs : List Char) : unwrap (c :: cs) = c :: cs := by
  have hlength : urnScheme.length = 9 := by decide +kernel
  have hscheme : urnScheme.head? = some 'u' := by decide +kernel
  unfold unwrap
  split
  · simp_all
  · refine if_neg fun h => hu ?_
    rw [hlength, List.take_succ_cons, List.map_cons] at h
    rw [← h] at hscheme
    exact Option.some.inj hscheme

/-- The hyphenated form of an id is not wrapped. -/
theorem unwrap_hyphenate (n : Nat) :
    unwrap (hyphenate groupLengths (hexDigits n 32)) =
      hyphenate groupLengths (hexDigits n 32) := by
  obtain ⟨c, cs, hcs⟩ : ∃ c cs, hexDigits n 32 = c :: cs :=
    List.exists_cons_of_length_eq_add_one (length_hexDigits n 32)
  obtain ⟨d, hd, hc⟩ := exists_digitChar_of_mem (hcs ▸ List.mem_cons_self)
  have hplain : ∀ d < 16, Nat.digitChar d ≠ '{' ∧
      (Nat.digitChar d).toLower ≠ 'u' := by decide
  have hfirst := hplain d hd
  rw [hc] at hfirst
  have hhead : hyphenate groupLengths (c :: cs) =
      c :: (cs.take 7 ++ '-' :: hyphenate [4, 4, 4, 12] (cs.drop 7)) := by
    simp [groupLengths, hyphenate]
  rw [hcs, hhead, unwrap_cons hfirst.1 hfirst.2]

@[simp] theorem ofNat_toNat (u : Uuid) : ofNat u.toNat = u := by
  simp [ofNat, toNat]

/-- An id is read back from its hyphenated form. -/
@[simp] theorem parse?_hyphenated (u : Uuid) :
    parse? u.hyphenated = some u := by
  have hdigits : (hexDigits u.toNat 32).length = 8 + [4, 4, 4, 12].sum :=
    length_hexDigits _ _
  have hlength := length_hyphenate hdigits
  have hgroups := dehyphenate?_hyphenate hdigits
  have hnumber : hexNumber? (hexDigits u.toNat 32) = some u.toNat := by
    have hlt : u.toNat < 2 ^ 128 := u.bits.isLt
    rw [hexNumber?_hexDigits, Nat.mod_eq_of_lt (by omega)]
  have hne : (hyphenate groupLengths (hexDigits u.toNat 32)).length ≠ 32 := by
    rw [groupLengths, hlength, length_hexDigits]
    decide
  simp only [parse?, hyphenated, String.toList_ofList, if_neg hne,
    unwrap_hyphenate]
  rw [groupLengths, hgroups]
  simp [hnumber]

end Uuid

end ControlPlane
