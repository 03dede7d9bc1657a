import Mathlib
import ControlPlane.Document.Basic

/-!
# Documents are read back

What is written into a document is what is read from it: a record field by
field, under whichever key comes where, and a list item by item.
-/

namespace ControlPlane

namespace Document

variable {α : Type}

/-! ## Values -/

theorem word?_ofNat {n : Nat} (hn : n < 2 ^ 32) : (ofNat n).word? = some n := by
  have hword : n < 1 <<< 32 := hn
  rw [ofNat, word?, if_pos ⟨Int.natCast_nonneg n, hword⟩, Int.toNat_natCast]

/-- A list is read back if its items are. -/
theorem list?_map {write : α → Document} {item : Document → Option α}
    {xs : List α} (h : ∀ x ∈ xs, item (write x) = some x) :
    list? item (.list (xs.map write)) = some xs := by
  rw [list?]
  induction xs with
  | nil => rfl
  | cons x xs ih =>
    obtain ⟨hx, hxs⟩ := List.forall_mem_cons.mp h
    simp [hx, ih hxs]

/-- A text that may be missing is read back, and so is its being missing. -/
@[simp] theorem optional_ofText? (s : Option String) :
    Slot.optional text? (.given (ofText? s)) = some s := by
  cases s <;> rfl

/-! ## Records -/

theorem lookup_of_nodup {fields : List (String × Document)}
    (hkeys : (fields.map (·.1)).Nodup) {key : String} {d : Document}
    (h : (key, d) ∈ fields) : fields.lookup key = some d := by
  induction fields with
  | nil => cases h
  | cons field fields ih =>
    obtain ⟨hnew, hkeys⟩ := List.nodup_cons.mp hkeys
    rcases List.mem_cons.mp h with rfl | h
    · simp
    · have hne : (key == field.1) = false := by
        rw [beq_eq_false_iff_ne]
        rintro rfl
        exact hnew (List.mem_map.mpr ⟨_, h, rfl⟩)
      rw [List.lookup_cons, hne]
      exact ih hkeys h

/-- A record whose keys differ has a value for each of them. -/
theorem slots_table (c : Convention) {fields : List (String × Document)}
    (hkeys : (fields.map (·.1)).Nodup) :
    (table fields).slots c (fields.map (·.1)) =
      some (fields.map fun field => .given field.2) := by
  have hfield : ∀ field ∈ fields, fields.lookup field.1 = some field.2 :=
    fun _ h => lookup_of_nodup hkeys h
  rw [slots, List.map_map]
  refine congrArg some (List.map_congr_left fun field h => ?_)
  simp [hfield field h]

end Document

end ControlPlane
