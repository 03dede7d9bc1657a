import Mathlib

/-!
# The order of texts

Keys are kept in the order of their characters. That is also the order of
their bytes in UTF-8: of two characters, the smaller one has the smaller byte
where their encodings first differ, and no encoding is the start of another.
-/

namespace ControlPlane

namespace Text

/-- The bytes of a text in UTF-8. -/
def bytes (s : String) : List UInt8 := s.toUTF8.data.toList

theorem bytes_eq (s : String) :
    bytes s = s.toList.flatMap String.utf8EncodeChar := by
  have hs := congrArg String.toByteArray (String.ofList_toList (s := s))
  rw [String.toByteArray_ofList] at hs
  rw [bytes, String.toUTF8_eq_toByteArray, ← hs]
  exact congrArg Array.toList List.data_toByteArray

theorem div_lt_div_or {m n : Nat} (k : Nat) (h : m < n) :
    m / k < n / k ∨ m / k = n / k ∧ m % k < n % k := by
  have hm := Nat.div_add_mod m k
  have hn := Nat.div_add_mod n k
  rcases Nat.lt_or_eq_of_le (Nat.div_le_div_right (c := k) h.le) with
    hlt | heq
  · exact .inl hlt
  · rw [heq] at hm
    exact .inr ⟨heq, by omega⟩

/-- Where the digits of two numbers first differ, the smaller one has the
smaller digit. -/
theorem digits_lt {m n : Nat} (h : m < n) :
    m / 262144 < n / 262144 ∨ m / 262144 = n / 262144 ∧
      (m / 4096 % 64 < n / 4096 % 64 ∨ m / 4096 % 64 = n / 4096 % 64 ∧
        (m / 64 % 64 < n / 64 % 64 ∨ m / 64 % 64 = n / 64 % 64 ∧
          m % 64 < n % 64)) := by
  have hdiv : ∀ x, x / 4096 = x / 64 / 64 ∧ x / 262144 = x / 64 / 64 / 64 :=
    fun x => by simp [Nat.div_div_eq_div_mul]
  rw [(hdiv m).1, (hdiv m).2, (hdiv n).1, (hdiv n).2]
  rcases div_lt_div_or 64 h with h | ⟨heq, hlast⟩
  · rcases div_lt_div_or 64 h with h | ⟨heq, hlast⟩
    · rcases div_lt_div_or 64 h with h | ⟨heq, hlast⟩
      · exact .inl h
      · exact .inr ⟨heq, .inl hlast⟩
    · exact .inr ⟨by rw [heq], .inr ⟨by rw [heq], .inl hlast⟩⟩
  · exact .inr ⟨by rw [heq], .inr ⟨by rw [heq], .inr ⟨by rw [heq], hlast⟩⟩⟩

/-- A smaller character has smaller bytes, whatever comes behind. -/
theorem utf8EncodeChar_append_lt {c d : Char} (h : c < d)
    (xs ys : List UInt8) :
    String.utf8EncodeChar c ++ xs < String.utf8EncodeChar d ++ ys := by
  have hlt : c.val.toNat < d.val.toNat := h
  have hmax : d.val.toNat < 0x110000 := by
    rcases d.valid with hsmall | ⟨-, hlarge⟩
    · exact Nat.lt_trans hsmall (by decide)
    · exact hlarge
  unfold String.utf8EncodeChar
  generalize c.val.toNat = m at hlt
  generalize d.val.toNat = n at hlt hmax
  have hdigits := digits_lt hlt
  dsimp only
  -- The first byte tells how many there are, so it decides between encodings
  -- of different lengths.
  split_ifs <;>
    simp only [List.cons_append, List.nil_append, List.cons_lt_cons_iff,
      UInt8.lt_iff_toNat_lt, ← UInt8.toNat_inj, UInt8.toNat_ofNat'] <;>
    simp (disch := omega) only [Nat.mod_eq_of_lt] <;>
    omega

theorem flatMap_utf8EncodeChar_lt {cs ds : List Char} (h : cs < ds) :
    cs.flatMap String.utf8EncodeChar < ds.flatMap String.utf8EncodeChar := by
  induction h with
  | @nil d ds =>
    obtain ⟨b, bs, hd⟩ := List.exists_cons_of_ne_nil
      (String.utf8EncodeChar_ne_nil (c := d))
    rw [List.flatMap_cons, hd]
    exact List.nil_lt_cons b _
  | rel hcd =>
    rw [List.flatMap_cons, List.flatMap_cons]
    exact utf8EncodeChar_append_lt hcd _ _
  | cons _ ih =>
    rw [List.flatMap_cons, List.flatMap_cons]
    exact List.append_left_lt ih

theorem bytes_lt_iff {s t : String} : bytes s < bytes t ↔ s < t := by
  have hlt : ∀ {s t : String}, s < t → bytes s < bytes t := by
    intro s t h
    rw [bytes_eq, bytes_eq]
    exact flatMap_utf8EncodeChar_lt h
  refine ⟨fun h => ?_, hlt⟩
  by_contra hnot
  rcases Std.le_iff_lt_or_eq.mp (String.not_lt.mp hnot) with hts | rfl
  · exact List.lt_asymm h (hlt hts)
  · exact List.lt_irrefl _ h

theorem bytes_le_iff {s t : String} : bytes s ≤ bytes t ↔ s ≤ t :=
  not_congr bytes_lt_iff

end Text

end ControlPlane
