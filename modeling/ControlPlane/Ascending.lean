import Std.Data.TreeMap
import Std.Data.TreeSet

/-! # Ascending lists

Sets of ids and of indices are kept as strictly ascending lists, so that a
set has one form and equal sets are equal values. -/
namespace ControlPlane

universe u

variable {α : Type u}

/-- Puts `x` into an ascending list, unless it is there already. -/
def insertAscending [Ord α] (x : α) : List α → List α
  | [] => [x]
  | y :: ys =>
    match compare x y with
    | .lt => x :: y :: ys
    | .eq => y :: ys
    | .gt => y :: insertAscending x ys

/-- The elements of a list, each once and in ascending order. -/
def ascending [Ord α] (xs : List α) : List α :=
  (xs.foldl (·.insert ·) (∅ : Std.TreeSet α)).toList

/-! ## Members and order -/

@[simp] theorem mem_insertAscending [Ord α] [Std.LawfulEqOrd α] {x z : α}
    {ys : List α} : z ∈ insertAscending x ys ↔ z = x ∨ z ∈ ys := by
  induction ys with
  | nil => simp [insertAscending]
  | cons y ys ih =>
    simp only [insertAscending]
    split
    · simp
    · rename_i h
      have : x = y := Std.LawfulEqCmp.eq_of_compare h
      simp [this]
    · simp [ih, or_left_comm]

theorem mem_foldl_insert [Ord α] [Std.TransOrd α] [Std.LawfulEqOrd α]
    {z : α} {xs : List α} {s : Std.TreeSet α} :
    z ∈ xs.foldl (·.insert ·) s ↔ z ∈ xs ∨ z ∈ s := by
  induction xs generalizing s with
  | nil => simp
  | cons x xs ih =>
    simp only [List.foldl_cons, ih, Std.TreeSet.mem_insert,
      Std.LawfulEqCmp.compare_eq_iff_eq, List.mem_cons]
    grind

@[simp] theorem mem_ascending [Ord α] [Std.TransOrd α]
    [Std.LawfulEqOrd α] {z : α} {xs : List α} :
    z ∈ ascending xs ↔ z ∈ xs := by
  simp [ascending, Std.TreeSet.mem_toList, mem_foldl_insert]

theorem pairwise_insertAscending [Ord α] [Std.TransOrd α] {x : α}
    {ys : List α} (h : ys.Pairwise (compare · · = .lt)) :
    (insertAscending x ys).Pairwise (compare · · = .lt) := by
  induction ys with
  | nil => simp [insertAscending]
  | cons y ys ih =>
    obtain ⟨hy, hys⟩ := List.pairwise_cons.mp h
    simp only [insertAscending]
    split
    · rename_i hxy
      refine List.pairwise_cons.mpr ⟨fun z hz => ?_, h⟩
      rcases List.mem_cons.mp hz with rfl | hz
      · exact hxy
      · exact Std.TransCmp.lt_trans hxy (hy z hz)
    · exact h
    · rename_i hxy
      refine List.pairwise_cons.mpr ⟨fun z hz => ?_, ih hys⟩
      have hyx : compare y x = .lt := Std.OrientedCmp.lt_of_gt hxy
      clear ih h hys
      induction ys with
      | nil =>
        simp only [insertAscending, List.mem_singleton] at hz
        exact hz ▸ hyx
      | cons w ws ihz =>
        simp only [insertAscending] at hz
        split at hz
        · rcases List.mem_cons.mp hz with rfl | hz
          · exact hyx
          · exact hy z hz
        · exact hy z hz
        · rcases List.mem_cons.mp hz with rfl | hz
          · exact hy _ List.mem_cons_self
          · exact ihz (fun v hv => hy v (List.mem_cons_of_mem _ hv)) hz

theorem pairwise_ascending [Ord α] [Std.TransOrd α] (xs : List α) :
    (ascending xs).Pairwise (compare · · = .lt) :=
  Std.TreeSet.ordered_toList

end ControlPlane
