import Mathlib
import ControlPlane.Ascending

/-!
# Indexes of ids

Vertices, operators, tasks and partitions are kept by position and found by
id through an index. What all of these indexes have in common: they hold
exactly the inverse of the ids at the positions, so no id stands at two
positions.
-/

namespace ControlPlane

universe u

variable {κ : Type u} [Ord κ] [Std.TransOrd κ] [Std.LawfulEqOrd κ]

/-- The index finds the key of every position there, and finds nothing
else. -/
def Indexes (index : Std.TreeMap κ Nat) (keyAt : Nat → Option κ) : Prop :=
  ∀ k i, index[k]? = some i ↔ keyAt i = some k

namespace Indexes

variable {index : Std.TreeMap κ Nat} {keyAt : Nat → Option κ}

omit [Std.TransOrd κ] [Std.LawfulEqOrd κ] in
/-- No key stands at two positions. -/
theorem inj (h : Indexes index keyAt) {i j : Nat} {k : κ}
    (hi : keyAt i = some k) (hj : keyAt j = some k) : i = j := by
  have h1 := (h k i).mpr hi
  have h2 := (h k j).mpr hj
  rw [h1] at h2
  exact Option.some.inj h2

/-- A new key is indexed at a new position. -/
theorem insert (h : Indexes index keyAt) {n : Nat} {k : κ}
    (hn : keyAt n = none) (hk : ∀ i, keyAt i ≠ some k) :
    Indexes (index.insert k n) fun i =>
      if i = n then some k else keyAt i := by
  intro k' i
  rw [Std.TreeMap.getElem?_insert]
  by_cases hkk : k = k'
  · subst hkk
    rw [if_pos Std.ReflCmp.compare_self]
    by_cases hi : i = n
    · simp [hi]
    · simp [hi, hk i, Ne.symm hi]
  · rw [if_neg (by simpa using hkk), h k' i]
    by_cases hi : i = n
    · subst hi
      simp [hn, hkk]
    · simp [hi]

variable {α : Type*} {f : α → κ} {x : α}

/-- An element appended to a list is indexed behind the others. -/
theorem append {xs : List α} (h : Indexes index (xs[·]?.map f))
    (hx : ∀ y ∈ xs, f y ≠ f x) :
    Indexes (index.insert (f x) xs.length) ((xs ++ [x])[·]?.map f) := by
  have hstep := h.insert (n := xs.length) (k := f x) (by simp) (by
    intro i hi
    obtain ⟨y, hy, hk⟩ := Option.map_eq_some_iff.mp hi
    exact hx y (List.mem_iff_getElem?.mpr ⟨i, hy⟩) hk)
  intro k i
  rw [hstep k i]
  show _ ↔ (xs ++ [x])[i]?.map f = some k
  by_cases hlt : i < xs.length
  · simp [hlt, Nat.ne_of_lt hlt, List.getElem?_append_left]
  · by_cases heq : i = xs.length
    · simp [heq]
    · have hout : (xs ++ [x])[i]? = none :=
        List.getElem?_eq_none (by simp; omega)
      simp [heq, hout, List.getElem?_eq_none (Nat.le_of_not_lt hlt)]

/-- Elements with different keys can be indexed one after the other. -/
theorem foldl_insert {xs : List α} (hxs : (xs.map f).Nodup) :
    Indexes (xs.zipIdx.foldl (fun index (x, i) => index.insert (f x) i) ∅)
      (xs[·]?.map f) := by
  -- The index of the first elements is exact after each of them.
  have hstep : ∀ (rest done : List α) (index : Std.TreeMap κ Nat),
      xs = done ++ rest → Indexes index (done[·]?.map f) →
      Indexes ((rest.zipIdx done.length).foldl
        (fun index (x, i) => index.insert (f x) i) index)
        (xs[·]?.map f) := by
    intro rest
    induction rest with
    | nil =>
      intro done index hdone hindex
      rw [List.append_nil] at hdone
      rw [hdone]
      exact hindex
    | cons x rest ih =>
      intro done index hdone hindex
      rw [List.zipIdx_cons, List.foldl_cons]
      rw [hdone, List.map_append, List.nodup_append] at hxs
      have hnext := hindex.append (x := x) fun y hy =>
        hxs.2.2 (f y) (List.mem_map_of_mem hy) (f x) (by simp)
      have h := ih (done ++ [x]) (index.insert (f x) done.length)
        (by simp [hdone]) hnext
      simpa using h
  exact hstep xs [] ∅ rfl (by
    intro k i
    simp)

omit [Std.TransOrd κ] [Std.LawfulEqOrd κ] in
/-- A change at the position of a key is one at every element that has the
key. -/
theorem modify_eq_map [DecidableEq κ] {xs : List α}
    (h : Indexes index (xs[·]?.map f)) {k : κ} {pos : Nat}
    (hpos : index[k]? = some pos) (g : α → α) :
    xs.modify pos g = xs.map fun y => if f y = k then g y else y := by
  have hkey := (h k pos).mp hpos
  apply List.ext_getElem?
  intro i
  rw [List.getElem?_modify, List.getElem?_map]
  cases hi : xs[i]? with
  | none => rfl
  | some y =>
    by_cases hip : pos = i
    · subst hip
      have hy : f y = k := by simpa [hi] using hkey
      simp [hy]
    · have hy : f y ≠ k := fun hy =>
        hip (h.inj hkey (by simp [hi, hy]))
      simp [hip, hy]

end Indexes

end ControlPlane
