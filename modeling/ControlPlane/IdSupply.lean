import ControlPlane.Ident

/-! # Fresh ids

The ids of new vertices and datasets are drawn by number from a supply. -/
namespace ControlPlane

/-- A source of fresh ids: different numbers give different ids. -/
structure IdSupply where
  vertex : Nat → VertexId
  dataSet : Nat → DataSetId

/-- The random ids whose seeds follow a number: the even ones make vertices
and the odd ones datasets. As long as the seeds stay below `2 ^ 122`, later
ids are greater than earlier ones. -/
def IdSupply.sequential (start : Nat) : IdSupply where
  vertex n := ⟨.random (.ofNat 122 (2 * (start + n)))⟩
  dataSet n := ⟨.random (.ofNat 122 (2 * (start + n) + 1))⟩

end ControlPlane
