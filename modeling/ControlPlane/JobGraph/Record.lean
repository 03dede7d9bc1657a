import ControlPlane.Document.Basic
import ControlPlane.JobGraph.Basic

/-! # Job graphs as documents

The written form of a job graph holds its name and its vertices. The index
by id is left out: it is empty after reading. -/
namespace ControlPlane

open Document (Convention)

/-! ## Ids -/

/-- The written form of an id is the hyphenated one. -/
def Uuid.toDocument (u : Uuid) : Document := .text u.hyphenated

/-- Reads an id in any accepted form. -/
def Uuid.ofDocument? (d : Document) : Option Uuid := d.text?.bind parse?

namespace VertexId

/-- The written form of the id. -/
def toDocument (id : VertexId) : Document := id.uuid.toDocument

/-- Reads the id of a vertex. -/
def ofDocument? (d : Document) : Option VertexId :=
  (Uuid.ofDocument? d).map VertexId.mk

end VertexId

namespace DataSetId

/-- The written form of the id. -/
def toDocument (id : DataSetId) : Document := id.uuid.toDocument

/-- Reads the id of a dataset. -/
def ofDocument? (d : Document) : Option DataSetId :=
  (Uuid.ofDocument? d).map DataSetId.mk

end DataSetId

namespace TaskId

/-- The vertex and the number of a task. -/
def toDocument (id : TaskId) : Document :=
  .table [
    ("job_vertex_id", id.vertex.toDocument),
    ("subtask_index", .ofNat id.subtask)]

/-- Reads the identity of a task. -/
def ofDocument? (c : Convention) (d : Document) : Option TaskId := do
  let [vertex, subtask] ← d.slots c ["job_vertex_id", "subtask_index"]
    | none
  return {
    vertex := ← vertex.required VertexId.ofDocument?
    subtask := ← subtask.required Document.word? }

end TaskId

namespace PartitionId

/-- The dataset and the number of a partition. -/
def toDocument (id : PartitionId) : Document :=
  .table [
    ("dataset_id", id.dataSet.toDocument),
    ("partition_num", .ofNat id.number)]

/-- Reads the identity of a partition. -/
def ofDocument? (c : Convention) (d : Document) : Option PartitionId := do
  let [dataSet, number] ← d.slots c ["dataset_id", "partition_num"]
    | none
  return {
    dataSet := ← dataSet.required DataSetId.ofDocument?
    number := ← number.required Document.word? }

end PartitionId

/-! ## Edges, vertices and graphs -/

namespace JobEdge

/-- The keys of an edge. -/
def keys : List String :=
  ["source", "producer", "target", "distribution_pattern", "result_type"]

/-- The fields of an edge. -/
def toDocument (e : JobEdge) : Document :=
  .table [
    ("source", e.source.toDocument),
    ("producer", e.producer.toDocument),
    ("target", e.target.toDocument),
    ("distribution_pattern", .text e.pattern.name),
    ("result_type", .text e.kind.name)]

/-- Reads an edge, whose fields all have to be there. -/
def ofDocument? (c : Convention) (d : Document) : Option JobEdge := do
  let [source, producer, target, pattern, kind] ← d.slots c keys | none
  return {
    source := ← source.required DataSetId.ofDocument?
    producer := ← producer.required VertexId.ofDocument?
    target := ← target.required VertexId.ofDocument?
    pattern := ← pattern.required (Document.name? c Pattern.ofName?)
    kind := ← kind.required (Document.name? c ResultKind.ofName?) }

end JobEdge

namespace JobVertex

/-- The keys of a vertex. -/
def keys : List String :=
  ["id", "name", "parallelism", "inputs", "produced_data_sets",
    "co_location_group", "snapshot_group"]

/-- The fields of a vertex; a group it is not in is null. -/
def toDocument (v : JobVertex) : Document :=
  .table [
    ("id", v.id.toDocument),
    ("name", .text v.name),
    ("parallelism", .ofNat v.parallelism),
    ("inputs", .list (v.inputs.map JobEdge.toDocument)),
    ("produced_data_sets", .list (v.produced.map DataSetId.toDocument)),
    ("co_location_group", .ofText? v.coLocationGroup),
    ("snapshot_group", .ofText? v.snapshotGroup)]

/-- Reads a vertex, of which only the groups may be left out. -/
def ofDocument? (c : Convention) (d : Document) : Option JobVertex := do
  let [id, name, parallelism, inputs, produced, coLocation, snapshot] ←
    d.slots c keys | none
  return {
    id := ← id.required VertexId.ofDocument?
    name := ← name.required Document.text?
    parallelism := ← parallelism.required Document.word?
    inputs := ← inputs.required (Document.list? (JobEdge.ofDocument? c))
    produced := ← produced.required (Document.list? DataSetId.ofDocument?)
    coLocationGroup := ← coLocation.optional Document.text?
    snapshotGroup := ← snapshot.optional Document.text? }

end JobVertex

namespace JobGraph

/-- The fields of a graph. -/
def toDocument (g : JobGraph) : Document :=
  .table [
    ("name", .text g.name),
    ("vertices", .list (g.vertices.map JobVertex.toDocument))]

/-- Reads a graph; its index has to be rebuilt with `reindex`. -/
def ofDocument? (c : Convention) (d : Document) : Option JobGraph := do
  let [name, vertices] ← d.slots c ["name", "vertices"] | none
  return {
    name := ← name.required Document.text?
    vertices :=
      ← vertices.required (Document.list? (JobVertex.ofDocument? c)) }

end JobGraph

end ControlPlane
