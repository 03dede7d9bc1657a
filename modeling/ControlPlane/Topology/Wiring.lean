import ControlPlane.Topology.Basic

/-! # Wiring of an edge

Which partitions of the producers are read together by which consumers. An
edge with full wiring has a single group. An edge with pointwise wiring
gives every consumer a range of partitions, or every partition a range of
consumers, whichever side has more subtasks. -/
namespace ControlPlane

universe u

/-- Partitions that are read together, with the tasks that read them. -/
structure Wire where
  partitions : List PartitionIndex
  consumers : List TaskIndex
deriving DecidableEq, Inhabited, Repr

namespace Wire

/-- The part of an array from one position up to another. -/
def slice {α : Type u} (xs : Array α) (start stop : Nat) : List α :=
  (xs.extract start stop).toList

/-- The quotient, rounded up. -/
def ceilDiv (a b : Nat) : Nat := (a + b - 1) / b

/-- The wires of a pointwise edge. Of two unequal sides, the larger one is
cut into consecutive ranges, one for each subtask of the smaller one. -/
def pointwise (partitions : List PartitionIndex)
    (consumers : List TaskIndex) : List Wire :=
  let sources := partitions.length
  let targets := consumers.length
  if sources = targets then
    List.zipWith (fun p c => ⟨[p], [c]⟩) partitions consumers
  else if targets < sources then
    let all := partitions.toArray
    consumers.zipIdx.map fun (c, i) =>
      ⟨slice all (i * sources / targets) ((i + 1) * sources / targets), [c]⟩
  else
    let all := consumers.toArray
    partitions.zipIdx.map fun (p, i) =>
      ⟨[p],
        slice all (ceilDiv (i * targets) sources)
          (ceilDiv ((i + 1) * targets) sources)⟩

/-- The wires of an edge. -/
def ofPattern (pattern : Pattern) (partitions : List PartitionIndex)
    (consumers : List TaskIndex) : List Wire :=
  match pattern with
  | .allToAll => [⟨partitions, consumers⟩]
  | .pointwise => pointwise partitions consumers

end Wire

end ControlPlane
