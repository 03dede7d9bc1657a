import Mathlib
import ControlPlane.JobGraph.Record
import ControlPlane.Topology.Build
import ControlPlane.Proofs.Document
import ControlPlane.Proofs.JobGraph.Downstream
import ControlPlane.Proofs.Uuid

/-!
# Job graphs are read back

The written form of a graph has all of it but the index, and the index is
known from the vertices: `reindex` enters them one by one, which is how they
were entered when the graph was built. So the graph that is read and indexed
again is the graph that was written. Before it is indexed again nothing is
found in it by an id, and it has no topology.
-/

namespace ControlPlane

open Document (Convention)

/-! ## Ids, edges and vertices -/

@[simp] theorem VertexId.ofDocument?_toDocument (id : VertexId) :
    VertexId.ofDocument? id.toDocument = some id := by
  simp [VertexId.ofDocument?, VertexId.toDocument, Uuid.ofDocument?,
    Uuid.toDocument, Document.text?]

@[simp] theorem DataSetId.ofDocument?_toDocument (id : DataSetId) :
    DataSetId.ofDocument? id.toDocument = some id := by
  simp [DataSetId.ofDocument?, DataSetId.toDocument, Uuid.ofDocument?,
    Uuid.toDocument, Document.text?]

@[simp] theorem JobEdge.ofDocument?_toDocument (c : Convention)
    (e : JobEdge) : JobEdge.ofDocument? c e.toDocument = some e := by
  have hslots : e.toDocument.slots c JobEdge.keys = some _ :=
    Document.slots_table c (by simp)
  rw [JobEdge.ofDocument?, hslots]
  simp [Document.Slot.required, Document.name?]

theorem JobVertex.ofDocument?_toDocument (c : Convention) {v : JobVertex}
    (hword : v.parallelism < 2 ^ 32) :
    JobVertex.ofDocument? c v.toDocument = some v := by
  have hslots : v.toDocument.slots c JobVertex.keys = some _ :=
    Document.slots_table c (by simp)
  have hinputs : Document.list? (JobEdge.ofDocument? c)
      (.list (v.inputs.map JobEdge.toDocument)) = some v.inputs :=
    Document.list?_map fun e _ => e.ofDocument?_toDocument c
  have hproduced : Document.list? DataSetId.ofDocument?
      (.list (v.produced.map DataSetId.toDocument)) = some v.produced :=
    Document.list?_map fun id _ => id.ofDocument?_toDocument
  rw [JobVertex.ofDocument?, hslots]
  simp [Document.Slot.required, Document.text?, Document.word?_ofNat hword,
    hinputs, hproduced]

namespace JobGraph

variable {g : JobGraph}

/-! ## The index -/

/-- What is entered into the index is known from the ids of the vertices. -/
theorem positions_reindex (g : JobGraph) :
    g.reindex.positions = (g.vertices.map (·.id)).zipIdx.foldl
      (fun index p => index.insert p.1 p.2) ∅ := by
  rw [List.zipIdx_map, List.foldl_map]
  rfl

theorem reindex_eq_iff :
    g.reindex = g ↔ g.reindex.positions = g.positions := by
  refine ⟨congrArg positions, fun h => ?_⟩
  have heta : g.reindex = { g with positions := g.reindex.positions } := rfl
  rw [heta, h]

theorem map_id_modify {vs : List JobVertex} (pos : Nat)
    {f : JobVertex → JobVertex} (hf : ∀ v, (f v).id = v.id) :
    (vs.modify pos f).map (·.id) = vs.map (·.id) := by
  refine List.ext_getElem? fun i => ?_
  rw [List.getElem?_map, List.getElem?_map, idAt_modify hf]

/-- Vertices that change but keep their ids need no other index. -/
theorem reindex_eq_of_vertices {vertices : List JobVertex}
    (hids : vertices.map (·.id) = g.vertices.map (·.id))
    (hindex : g.reindex = g) :
    reindex { g with vertices } = { g with vertices } := by
  rw [reindex_eq_iff, positions_reindex, hids, ← positions_reindex, hindex]

theorem reindex_eq_of_updateVertex {g' : JobGraph} {id : VertexId}
    {f : JobVertex → JobVertex} (hf : ∀ v, (f v).id = v.id)
    (hindex : g.reindex = g) (h : g.updateVertex id f = .ok g') :
    g'.reindex = g' := by
  obtain ⟨pos, -, hret⟩ := bind_eq_ok_iff.mp h
  cases hret
  exact reindex_eq_of_vertices (map_id_modify pos hf) hindex

theorem reindex_eq_of_addVertex (id : VertexId) (name : String)
    (parallelism : Nat) (hindex : g.reindex = g) :
    (g.addVertex id name parallelism).reindex =
      g.addVertex id name parallelism := by
  have hold := congrArg positions hindex
  rw [positions_reindex] at hold
  rw [reindex_eq_iff, positions_reindex]
  simp [addVertex, List.zipIdx_append, hold]

theorem reindex_eq_of_connect {g' : JobGraph} {dataSet : DataSetId}
    {producer consumer : VertexId} {pattern : Pattern} {kind : ResultKind}
    (hindex : g.reindex = g)
    (h : g.connect dataSet producer consumer pattern kind = .ok g') :
    g'.reindex = g' := by
  obtain ⟨-, source, sink, -, -, rfl⟩ := of_connect_eq_ok h
  refine reindex_eq_of_vertices ?_ hindex
  rw [map_id_modify sink, map_id_modify source]
  all_goals exact fun _ => rfl

/-- The index of a graph is the one that its vertices give. -/
theorem Built.reindex_eq (hbuilt : g.Built) : g.reindex = g := by
  induction hbuilt with
  | empty name => rfl
  | addVertex name parallelism _ _ ih =>
    exact reindex_eq_of_addVertex _ name parallelism ih
  | connect _ _ h ih => exact reindex_eq_of_connect ih h
  | @setCoLocationGroup _ _ _ group _ h ih =>
    exact reindex_eq_of_updateVertex
      (f := ({ · with coLocationGroup := some group })) (fun _ => rfl) ih h
  | @setSnapshotGroup _ _ _ group _ h ih =>
    exact reindex_eq_of_updateVertex
      (f := ({ · with snapshotGroup := some group })) (fun _ => rfl) ih h
  | reindex _ ih => rw [ih, ih]

/-! ## Without an index -/

/-- Nothing is found by its id, and nothing is laid out. -/
structure FindsNothing (g : JobGraph) : Prop where
  position : ∀ id, g.position id = .error (.unknownVertex id)
  vertex : ∀ id, g.vertex id = .error (.unknownVertex id)
  update : ∀ id f, g.updateVertex id f = .error (.unknownVertex id)
  connect : ∀ dataSet producer consumer pattern kind,
    ∃ e, g.connect dataSet producer consumer pattern kind = .error e
  feeds : ∀ id group, g.feedsGroup id group = false
  topology : g.vertices ≠ [] → ∃ e, Topology.ofJobGraph g = .error e

/-- The first vertex in a sort is not found. -/
theorem ofJobGraph_eq_error (hvertex : ∀ id, g.vertex id = .error
    (.unknownVertex id)) (hne : g.vertices ≠ []) :
    ∃ e, Topology.ofJobGraph g = .error e := by
  rw [Topology.ofJobGraph]
  cases horder : g.sorted with
  | error e => exact ⟨e, rfl⟩
  | ok order =>
    obtain ⟨v, order, rfl⟩ := List.exists_cons_of_ne_nil (l := order)
      fun hnil => hne (hnil ▸ sorted_perm horder).symm.eq_nil
    exact ⟨.unknownVertex v.id, by
      simp [Topology.addOperator, hvertex, bind, Except.bind]⟩

theorem findsNothing (hindex : g.positions = ∅) : g.FindsNothing := by
  have hposition : ∀ id, g.position id = .error (.unknownVertex id) := by
    simp [JobGraph.position, hindex]
  have hvertex : ∀ id, g.vertex id = .error (.unknownVertex id) := by
    simp [JobGraph.vertex, hindex]
  refine ⟨hposition, hvertex, fun id f => ?_, fun d p c pattern kind => ?_,
    fun id group => ?_, ofJobGraph_eq_error hvertex⟩
  · rw [updateVertex, hposition]
    rfl
  · by_cases hne : p = c
    · exact ⟨.invalidGraph (.selfLoop p), by
        simp [JobGraph.connect, hne, bind, Except.bind, throw, throwThe,
          MonadExceptOf.throw]⟩
    · exact ⟨.unknownVertex p, by
        simp [JobGraph.connect, hne, hposition, bind, Except.bind]⟩
  · simp [feedsGroup, hvertex]

/-! ## Whole graphs -/

theorem ofDocument?_toDocument (c : Convention)
    (hwords : ∀ v ∈ g.vertices, v.parallelism < 2 ^ 32) :
    ofDocument? c g.toDocument =
      some { name := g.name, vertices := g.vertices } := by
  have hslots : g.toDocument.slots c ["name", "vertices"] = some _ :=
    Document.slots_table c (by simp)
  have hvertices : Document.list? (JobVertex.ofDocument? c)
      (.list (g.vertices.map JobVertex.toDocument)) = some g.vertices :=
    Document.list?_map fun v hv =>
      JobVertex.ofDocument?_toDocument c (hwords v hv)
  rw [ofDocument?, hslots]
  simp [Document.Slot.required, Document.text?, hvertices]

/-- A graph that was written is read with its vertices as they were, and is
the graph that was written once it is indexed again, so that it gives every
answer that the other one gives. Until then nothing is found in it. -/
theorem restored_of_built (hbuilt : g.Built)
    (hwords : ∀ v ∈ g.vertices, v.parallelism < 2 ^ 32) (c : Convention) :
    ∃ read, ofDocument? c g.toDocument = some read ∧
      read.name = g.name ∧ read.vertices = g.vertices ∧
      read.reindex = g ∧ read.FindsNothing :=
  ⟨_, ofDocument?_toDocument c hwords, rfl, rfl, hbuilt.reindex_eq,
    findsNothing rfl⟩

/-- The diamond is written and read with a side in a group. -/
theorem restored_grouped_diamond :
    (∀ v ∈ (diamond.join "sides" 3).vertices, v.parallelism < 2 ^ 32) ∧
      (diamond.join "sides" 3).vertices.map (·.snapshotGroup) =
        [none, some "sides", none, none] ∧
      ∃ read, ofDocument? .json (diamond.join "sides" 3).toDocument =
          some read ∧
        read.name = "corners" ∧
        read.vertices = (diamond.join "sides" 3).vertices ∧
        read.reindex = diamond.join "sides" 3 ∧ read.FindsNothing := by
  have hwords :
      ∀ v ∈ (diamond.join "sides" 3).vertices, v.parallelism < 2 ^ 32 := by
    decide +kernel
  exact ⟨hwords, by decide +kernel,
    restored_of_built (built_diamond.join "sides" 3) hwords .json⟩

end JobGraph

end ControlPlane
