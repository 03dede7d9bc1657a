import Mathlib
import ControlPlane.Proofs.Definition.Valid
import ControlPlane.Proofs.Text.Bytes

/-!
# The tasks that a key names

A key is the name of a vertex, which stands for all of its subtasks, or a
name, a colon and a number, which stand for one. Names have no colon, so the
first colon ends the name, however much of a key another name shares. One
subtask is named by many keys, because numbers may have a sign and leading
zeros.
-/

namespace ControlPlane

/-- A key names a subtask of the vertex with a name. -/
def KeyNames (key name : String) (subtask : Nat) : Prop :=
  key = name ∨ ∃ index, key = name ++ ":" ++ index ∧
    Text.numeral32 index = .ok subtask

variable {key name : String} {subtask : Nat}

/-! ## The first colon -/

theorem splitColon_of_not_mem (h : ':' ∉ key.toList) :
    splitColon key = (key, none) := by
  have hall : ∀ c ∈ key.toList, decide (c ≠ ':') = true :=
    fun c hc => decide_eq_true fun heq => h (heq ▸ hc)
  rw [splitColon, List.span_eq_takeWhile_dropWhile,
    List.takeWhile_eq_self_iff.mpr hall, List.dropWhile_eq_nil_iff.mpr hall]
  simp [String.ofList_toList]

theorem splitColon_append (h : ':' ∉ name.toList) (index : String) :
    splitColon (name ++ ":" ++ index) = (name, some index) := by
  have hall : ∀ c ∈ name.toList, decide (c ≠ ':') = true :=
    fun c hc => decide_eq_true fun heq => h (heq ▸ hc)
  have hchars : (name ++ ":" ++ index).toList =
      name.toList ++ ':' :: index.toList := by simp
  rw [splitColon, hchars, List.span_eq_takeWhile_dropWhile,
    List.takeWhile_append_of_pos hall, List.dropWhile_append_of_pos hall]
  simp [String.ofList_toList]

theorem splitTaskKey_of_not_mem (h : ':' ∉ key.toList) :
    splitTaskKey key = .ok (key, none) := by
  rw [splitTaskKey, splitColon_of_not_mem h]

theorem splitTaskKey_append (h : ':' ∉ name.toList) {index : String}
    (hindex : Text.numeral32 index = .ok subtask) :
    splitTaskKey (name ++ ":" ++ index) = .ok (name, some subtask) := by
  rw [splitTaskKey, splitColon_append h]
  dsimp only
  rw [hindex]

/-- Every text is a name without a colon, or has a first one. -/
theorem key_cases (key : String) : ':' ∉ key.toList ∨
    ∃ name index, ':' ∉ name.toList ∧ key = name ++ ":" ++ index := by
  by_cases h : ':' ∈ key.toList
  · obtain ⟨front, behind, hkey, hfront⟩ := List.eq_append_cons_of_mem h
    refine .inr ⟨String.ofList front, String.ofList behind, by simpa, ?_⟩
    rw [← String.toList_inj, hkey]
    simp
  · exact .inl h

/-! ## What a key is read as -/

/-- A key names the subtasks that it is read as. -/
theorem keyNames_iff {parsed : String} {index : Option Nat}
    (hsplit : splitTaskKey key = .ok (parsed, index))
    (hname : ':' ∉ name.toList) :
    KeyNames key name subtask ↔
      parsed = name ∧ ∀ k ∈ index, k = subtask := by
  constructor
  · rintro (rfl | ⟨text, rfl, htext⟩)
    · rw [splitTaskKey_of_not_mem hname] at hsplit
      cases hsplit
      exact ⟨rfl, nofun⟩
    · rw [splitTaskKey_append hname htext] at hsplit
      cases hsplit
      exact ⟨rfl, fun k hk => (Option.some.inj hk).symm⟩
  · rintro ⟨rfl, hindex⟩
    rcases key_cases key with hkey | ⟨other, text, hother, rfl⟩
    · rw [splitTaskKey_of_not_mem hkey] at hsplit
      cases hsplit
      exact .inl rfl
    · rw [splitTaskKey, splitColon_append hother] at hsplit
      dsimp only at hsplit
      split at hsplit
      · rename_i k hk
        cases hsplit
        exact .inr ⟨text, rfl, hindex k rfl ▸ hk⟩
      · cases hsplit

/-- The name of a vertex comes before the other keys that name a subtask of
it. -/
theorem KeyNames.le (h : KeyNames key name subtask) : name ≤ key := by
  rcases h with rfl | ⟨index, rfl, -⟩
  · exact le_refl _
  · rw [String.append_assoc, ← String.not_lt, String.lt_iff_toList_lt,
      String.toList_append]
    exact List.le_append_left

end ControlPlane
