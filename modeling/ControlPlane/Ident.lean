import ControlPlane.Uuid

/-! # Identities of a job

Job vertices and datasets carry random ids. A task is one subtask of a job
vertex, and a partition is the share of a dataset that one subtask
produces; both are ordered first by id and then by number. -/
namespace ControlPlane

/-- Identity of a logical operator in the job graph. -/
structure VertexId where
  uuid : Uuid
deriving DecidableEq, Inhabited, Repr

/-- Identity of the dataset that one edge carries. -/
structure DataSetId where
  uuid : Uuid
deriving DecidableEq, Inhabited, Repr

/-- Identity of one parallel task. -/
structure TaskId where
  vertex : VertexId
  subtask : Nat
deriving DecidableEq, Inhabited, Repr

/-- Identity of one partition of a dataset. -/
structure PartitionId where
  dataSet : DataSetId
  number : Nat
deriving DecidableEq, Inhabited, Repr

/-! ## Written forms -/

/-- The plain hex form of the id. -/
def VertexId.hex (id : VertexId) : String := id.uuid.hex

/-- The plain hex form of the id. -/
def DataSetId.hex (id : DataSetId) : String := id.uuid.hex

instance : ToString VertexId := ⟨VertexId.hex⟩

instance : ToString DataSetId := ⟨DataSetId.hex⟩

instance : ToString TaskId where
  toString id := s!"{id.vertex}_{id.subtask}"

instance : ToString PartitionId where
  toString id := s!"{id.dataSet}#{id.number}"

/-! ## Order -/

instance : Ord VertexId := ⟨compareOn VertexId.uuid⟩

instance : Ord DataSetId := ⟨compareOn DataSetId.uuid⟩

instance : Ord TaskId :=
  ⟨compareLex (compareOn TaskId.vertex) (compareOn TaskId.subtask)⟩

instance : Ord PartitionId :=
  ⟨compareLex (compareOn PartitionId.dataSet)
    (compareOn PartitionId.number)⟩

instance : Std.TransOrd VertexId :=
  inferInstanceAs (Std.TransCmp (compareOn VertexId.uuid))

instance : Std.TransOrd DataSetId :=
  inferInstanceAs (Std.TransCmp (compareOn DataSetId.uuid))

instance : Std.TransOrd TaskId :=
  inferInstanceAs (Std.TransCmp
    (compareLex (compareOn TaskId.vertex) (compareOn TaskId.subtask)))

instance : Std.TransOrd PartitionId :=
  inferInstanceAs (Std.TransCmp
    (compareLex (compareOn PartitionId.dataSet)
      (compareOn PartitionId.number)))

instance : Std.LawfulEqOrd VertexId where
  eq_of_compare {a b} h := by
    have h : compare a.uuid b.uuid = .eq := h
    cases a
    cases b
    exact congrArg VertexId.mk (Std.LawfulEqCmp.eq_of_compare h)

instance : Std.LawfulEqOrd DataSetId where
  eq_of_compare {a b} h := by
    have h : compare a.uuid b.uuid = .eq := h
    cases a
    cases b
    exact congrArg DataSetId.mk (Std.LawfulEqCmp.eq_of_compare h)

instance : Std.LawfulEqOrd TaskId where
  eq_of_compare {a b} h := by
    obtain ⟨hv, hs⟩ := compareLex_eq_eq.mp h
    have hv : a.vertex = b.vertex := Std.LawfulEqCmp.eq_of_compare hv
    have hs : a.subtask = b.subtask := Std.LawfulEqCmp.eq_of_compare hs
    cases a
    cases b
    simp_all

instance : Std.LawfulEqOrd PartitionId where
  eq_of_compare {a b} h := by
    obtain ⟨hd, hn⟩ := compareLex_eq_eq.mp h
    have hd : a.dataSet = b.dataSet := Std.LawfulEqCmp.eq_of_compare hd
    have hn : a.number = b.number := Std.LawfulEqCmp.eq_of_compare hn
    cases a
    cases b
    simp_all

end ControlPlane
