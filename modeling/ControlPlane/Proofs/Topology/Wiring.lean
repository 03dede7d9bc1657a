import Mathlib
import ControlPlane.Topology.Wiring
import ControlPlane.Proofs.Sequence

/-!
# Wires cover both sides of an edge once

Whatever the pattern and the two numbers of subtasks are, the wires of an
edge go through its partitions in order, and through its consumers in
order. Each partition and each consumer is therefore on exactly one wire.
-/

namespace ControlPlane

namespace Wire

theorem slice_eq {α : Type} (xs : List α) (start stop : Nat) :
    slice xs.toArray start stop = (xs.drop start).take (stop - start) := by
  simp [slice]

theorem mul_div_le_succ (a b i : Nat) : i * a / b ≤ (i + 1) * a / b :=
  Nat.div_le_div_right (Nat.mul_le_mul_right a (Nat.le_succ i))

theorem ceilDiv_le_succ (a b i : Nat) :
    ceilDiv (i * a) b ≤ ceilDiv ((i + 1) * a) b := by
  have h : i * a ≤ (i + 1) * a := Nat.mul_le_mul_right a (Nat.le_succ i)
  exact Nat.div_le_div_right (by omega)

/-- Every step of a side that is cut into fewer ranges reaches further. -/
theorem mul_div_lt_succ {a b : Nat} (hb : 0 < b) (hle : b ≤ a) (i : Nat) :
    i * a / b < (i + 1) * a / b := by
  have hnext : i * a + b ≤ (i + 1) * a := by
    rw [Nat.succ_mul]
    exact Nat.add_le_add_left hle _
  calc i * a / b < i * a / b + 1 := Nat.lt_succ_self _
    _ = (i * a + b) / b := (Nat.add_div_right _ hb).symm
    _ ≤ (i + 1) * a / b := Nat.div_le_div_right hnext

theorem ceilDiv_lt_succ {a b : Nat} (hb : 0 < b) (hle : b ≤ a) (i : Nat) :
    ceilDiv (i * a) b < ceilDiv ((i + 1) * a) b := by
  have hnext : i * a + b - 1 + b ≤ (i + 1) * a + b - 1 := by
    rw [Nat.succ_mul]
    omega
  calc ceilDiv (i * a) b < (i * a + b - 1) / b + 1 := Nat.lt_succ_self _
    _ = (i * a + b - 1 + b) / b := (Nat.add_div_right _ hb).symm
    _ ≤ ceilDiv ((i + 1) * a) b := Nat.div_le_div_right hnext

/-- Rounding up inverts a multiplication. -/
theorem ceilDiv_le_iff {a b i : Nat} (hb : 0 < b) :
    ceilDiv a b ≤ i ↔ a ≤ i * b := by
  rw [ceilDiv, ← Nat.lt_succ_iff, Nat.div_lt_iff_lt_mul hb, Nat.succ_mul]
  omega

/-- No range ends behind the side that it is cut from. -/
theorem succ_mul_div_le {sources targets i : Nat} (hi : i < targets) :
    (i + 1) * sources / targets ≤ sources :=
  Nat.div_le_of_le_mul (Nat.mul_le_mul_right sources hi)

theorem ceilDiv_succ_mul_le {sources targets i : Nat} (hi : i < sources) :
    ceilDiv ((i + 1) * targets) sources ≤ targets := by
  rw [ceilDiv_le_iff (by omega), Nat.mul_comm targets]
  exact Nat.mul_le_mul_right targets hi

theorem ceilDiv_mul_self {a b : Nat} (hb : 0 < b) : ceilDiv (b * a) b = a := by
  rw [ceilDiv, Nat.add_sub_assoc hb, Nat.mul_add_div hb,
    Nat.div_eq_of_lt (by omega), Nat.add_zero]

theorem ceilDiv_zero {b : Nat} (hb : 0 < b) : ceilDiv 0 b = 0 := by
  rw [ceilDiv, Nat.zero_add]
  exact Nat.div_eq_of_lt (by omega)

theorem partitions_zipWith {ps : List PartitionIndex} {cs : List TaskIndex}
    (h : ps.length = cs.length) :
    (List.zipWith (fun p c => (⟨[p], [c]⟩ : Wire)) ps cs).flatMap
      (·.partitions) = ps := by
  induction ps generalizing cs with
  | nil => simp
  | cons p ps ih =>
    cases cs with
    | nil => simp at h
    | cons c cs => simp [ih (by simpa using h)]

theorem consumers_zipWith {ps : List PartitionIndex} {cs : List TaskIndex}
    (h : ps.length = cs.length) :
    (List.zipWith (fun p c => (⟨[p], [c]⟩ : Wire)) ps cs).flatMap
      (·.consumers) = cs := by
  induction ps generalizing cs with
  | nil =>
    rw [List.length_nil] at h
    simp [List.length_eq_zero_iff.mp h.symm]
  | cons p ps ih =>
    cases cs with
    | nil => simp at h
    | cons c cs => simp [ih (by simpa using h)]

/-- The wires go through the partitions in order, if anybody reads. -/
theorem flatMap_partitions (pattern : Pattern) (ps : List PartitionIndex)
    {cs : List TaskIndex} (hcs : cs ≠ []) :
    (ofPattern pattern ps cs).flatMap (·.partitions) = ps := by
  have hpos : 0 < cs.length := List.length_pos_iff.mpr hcs
  cases pattern with
  | allToAll => simp [ofPattern]
  | pointwise =>
    simp only [ofPattern, pointwise]
    split
    · rename_i heq
      exact partitions_zipWith heq
    · split
      · rw [List.flatMap_map]
        simp only [slice_eq]
        rw [flatMap_zipIdx_snd cs fun i =>
            (ps.drop (i * ps.length / cs.length)).take
              ((i + 1) * ps.length / cs.length - i * ps.length / cs.length),
          flatMap_take_drop ps (f := fun i => i * ps.length / cs.length)
            (by simp) (mul_div_le_succ _ _)]
        rw [Nat.mul_div_cancel_left _ hpos, List.take_length]
      · rw [List.flatMap_map, flatMap_zipIdx_fst ps fun p => [p],
          List.flatMap_singleton']

/-- The wires go through the consumers in order, if there is anything to
read. -/
theorem flatMap_consumers (pattern : Pattern) {ps : List PartitionIndex}
    (hps : ps ≠ []) (cs : List TaskIndex) :
    (ofPattern pattern ps cs).flatMap (·.consumers) = cs := by
  have hpos : 0 < ps.length := List.length_pos_iff.mpr hps
  cases pattern with
  | allToAll => simp [ofPattern]
  | pointwise =>
    simp only [ofPattern, pointwise]
    split
    · rename_i heq
      exact consumers_zipWith heq
    · split
      · rw [List.flatMap_map, flatMap_zipIdx_fst cs fun c => [c],
          List.flatMap_singleton']
      · rw [List.flatMap_map]
        simp only [slice_eq]
        rw [flatMap_zipIdx_snd ps fun i =>
            (cs.drop (ceilDiv (i * cs.length) ps.length)).take
              (ceilDiv ((i + 1) * cs.length) ps.length -
                ceilDiv (i * cs.length) ps.length),
          flatMap_take_drop cs
            (f := fun i => ceilDiv (i * cs.length) ps.length)
            (by simp [ceilDiv_zero hpos]) (ceilDiv_le_succ _ _)]
        rw [ceilDiv_mul_self hpos, List.take_length]

/-- A wire between other partitions and consumers. -/
def map (f : PartitionIndex → Nat) (g : TaskIndex → Nat) (w : Wire) : Wire :=
  ⟨w.partitions.map f, w.consumers.map g⟩

/-- Which places are wired together does not depend on what is there. -/
theorem ofPattern_map (pattern : Pattern) (f : PartitionIndex → Nat)
    (g : TaskIndex → Nat) (ps : List PartitionIndex) (cs : List TaskIndex) :
    ofPattern pattern (ps.map f) (cs.map g) =
      (ofPattern pattern ps cs).map (map f g) := by
  cases pattern with
  | allToAll => rfl
  | pointwise =>
    simp only [ofPattern, pointwise, List.length_map, slice_eq]
    split
    · rw [List.zipWith_map, List.map_zipWith]
      rfl
    · split
      · rw [List.zipIdx_map, List.map_map, List.map_map]
        apply List.map_congr_left
        intro x _
        simp [map, List.map_drop, List.map_take]
      · rw [List.zipIdx_map, List.map_map, List.map_map]
        apply List.map_congr_left
        intro x _
        simp [map, List.map_drop, List.map_take]

end Wire

end ControlPlane
