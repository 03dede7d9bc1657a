import Mathlib
import ControlPlane.Proofs.Checked.Basic
import ControlPlane.Proofs.Topology.Wiring

/-!
# Wiring in machine words

Numbers of subtasks have 32 bits, and the ranges of a pointwise edge are
computed in words of 64 bits. Here every operation on words fails where a
machine would: when a result does not fit, when a difference is below zero,
when a divisor is zero, and when a range leaves the list that it is cut from.
On numbers of 32 bits none of this happens.
-/

namespace ControlPlane

namespace Word

/-- Why an operation on words has no result. -/
inductive Fault where
  /-- A sum or a product that does not fit into a word. -/
  | overflow
  /-- A difference below zero. -/
  | belowZero
  | zeroDivisor
  /-- A range that leaves the list that it is cut from. -/
  | outOfRange
deriving DecidableEq, Repr

/-! ## Operations -/

/-- The word for a number. -/
def fit (n : Nat) : Except Fault Nat :=
  if n < 2 ^ 64 then .ok n else .error .overflow

/-- The sum of two words. -/
def add (a b : Nat) : Except Fault Nat := fit (a + b)

/-- The product of two words. -/
def mul (a b : Nat) : Except Fault Nat := fit (a * b)

/-- The difference of two words. -/
def sub (a b : Nat) : Except Fault Nat :=
  if b ≤ a then .ok (a - b) else .error .belowZero

/-- The quotient of two words. -/
def div (a b : Nat) : Except Fault Nat :=
  if b = 0 then .error .zeroDivisor else .ok (a / b)

/-- The part of a list from one position up to another. -/
def slice (xs : List Nat) (start stop : Nat) : Except Fault (List Nat) :=
  if start ≤ stop ∧ stop ≤ xs.length then
    .ok (Wire.slice xs.toArray start stop)
  else .error .outOfRange

/-- Where the range of a consumer starts among more partitions. -/
def floorBound (i sources targets : Nat) : Except Fault Nat := do
  div (← mul i sources) targets

/-- Where the range of a partition starts among more consumers. -/
def ceilBound (i targets sources : Nat) : Except Fault Nat := do
  div (← sub (← add (← mul i targets) sources) 1) sources

/-- The wires of a pointwise edge. -/
def pointwise (partitions : List PartitionIndex) (consumers : List TaskIndex) :
    Except Fault (List Wire) :=
  let sources := partitions.length
  let targets := consumers.length
  if sources = targets then
    .ok (List.zipWith (fun p c => ⟨[p], [c]⟩) partitions consumers)
  else if targets < sources then
    consumers.zipIdx.mapM fun (c, i) => do
      let start ← floorBound i sources targets
      let stop ← floorBound (← add i 1) sources targets
      return ⟨← slice partitions start stop, [c]⟩
  else
    partitions.zipIdx.mapM fun (p, i) => do
      let start ← ceilBound i targets sources
      let stop ← ceilBound (← add i 1) targets sources
      return ⟨[p], ← slice consumers start stop⟩

/-! ## Results that fit -/

theorem fit_eq_ok {n : Nat} (h : n < 2 ^ 64) : fit n = .ok n := if_pos h

theorem add_one_eq_ok {i n : Nat} (hi : i < n) (hn : n < 2 ^ 32) :
    add i 1 = .ok (i + 1) := fit_eq_ok (by omega)

theorem slice_eq_ok {xs : List Nat} {start stop : Nat} (hle : start ≤ stop)
    (hstop : stop ≤ xs.length) :
    slice xs start stop = .ok (Wire.slice xs.toArray start stop) :=
  if_pos ⟨hle, hstop⟩

theorem div_eq_ok {b : Nat} (hb : 0 < b) (a : Nat) : div a b = .ok (a / b) :=
  if_neg (Nat.ne_of_gt hb)

/-- A product of two halves of a word is a word. -/
theorem mul_eq_ok {a b : Nat} (ha : a < 2 ^ 32) (hb : b < 2 ^ 32) :
    mul a b = .ok (a * b) :=
  have hlt : a * b < 2 ^ 32 * 2 ^ 32 := Nat.mul_lt_mul'' ha hb
  fit_eq_ok hlt

theorem floorBound_eq_ok {i sources targets : Nat} (hi : i ≤ targets)
    (hpos : 0 < targets) (hsources : sources < 2 ^ 32)
    (htargets : targets < 2 ^ 32) :
    floorBound i sources targets = .ok (i * sources / targets) := by
  rw [floorBound, mul_eq_ok (by omega) hsources, Checked.ok_bind,
    div_eq_ok hpos]

theorem ceilBound_eq_ok {i targets sources : Nat} (hi : i ≤ sources)
    (hpos : 0 < sources) (htargets : targets < 2 ^ 32)
    (hsources : sources < 2 ^ 32) :
    ceilBound i targets sources =
      .ok (Wire.ceilDiv (i * targets) sources) := by
  -- The largest sum is one more row of the table of products.
  have hsum : i * targets + sources < 2 ^ 64 := by
    calc i * targets + sources ≤ sources * targets + sources :=
          Nat.add_le_add_right (Nat.mul_le_mul_right targets hi) sources
      _ = sources * (targets + 1) := (Nat.mul_succ sources targets).symm
      _ < 2 ^ 32 * 2 ^ 32 :=
          Nat.mul_lt_mul_of_lt_of_le hsources htargets (by decide)
  have hadd : add (i * targets) sources = .ok (i * targets + sources) :=
    fit_eq_ok hsum
  have hsub : sub (i * targets + sources) 1 =
      .ok (i * targets + sources - 1) := if_pos (by omega)
  rw [ceilBound, mul_eq_ok (by omega) htargets, Checked.ok_bind, hadd,
    Checked.ok_bind, hsub, Checked.ok_bind, div_eq_ok hpos, Wire.ceilDiv]

/-- Every range is computed within a word, and cut inside the side that it is
cut from. -/
theorem pointwise_eq_ok {ps : List PartitionIndex} {cs : List TaskIndex}
    (hps : ps.length < 2 ^ 32) (hcs : cs.length < 2 ^ 32) :
    pointwise ps cs = .ok (Wire.pointwise ps cs) := by
  simp only [pointwise, Wire.pointwise]
  split
  · rfl
  · split
    · apply Checked.mapM_eq_ok
      rintro ⟨c, i⟩ hc
      have hi : i < cs.length := (List.mem_zipIdx' hc).1
      have hpos : 0 < cs.length := by omega
      simp only [floorBound_eq_ok (Nat.le_of_lt hi) hpos hps hcs,
        add_one_eq_ok hi hcs, floorBound_eq_ok hi hpos hps hcs,
        Checked.ok_bind]
      rw [slice_eq_ok (Wire.mul_div_le_succ ..) (Wire.succ_mul_div_le hi)]
      rfl
    · apply Checked.mapM_eq_ok
      rintro ⟨p, i⟩ hp
      have hi : i < ps.length := (List.mem_zipIdx' hp).1
      have hpos : 0 < ps.length := by omega
      simp only [ceilBound_eq_ok (Nat.le_of_lt hi) hpos hcs hps,
        add_one_eq_ok hi hps, ceilBound_eq_ok hi hpos hcs hps,
        Checked.ok_bind]
      rw [slice_eq_ok (Wire.ceilDiv_le_succ ..) (Wire.ceilDiv_succ_mul_le hi)]
      rfl

end Word

end ControlPlane
