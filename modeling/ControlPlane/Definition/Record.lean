import ControlPlane.Definition.Basic
import ControlPlane.Document.Basic

/-! # Job definitions as documents -/
namespace ControlPlane

open Document (Convention)

namespace VertexSpec

/-- The keys of a vertex. -/
def keys : List String :=
  ["name", "parallelism", "co_location_group", "snapshot_group"]

/-- The fields of a vertex; what is not stated is null. -/
def toDocument (v : VertexSpec) : Document :=
  .table [
    ("name", .text v.name),
    ("parallelism", (v.parallelism.map Document.ofNat).getD .null),
    ("co_location_group", .ofText? v.coLocationGroup),
    ("snapshot_group", .ofText? v.snapshotGroup)]

/-- Reads a vertex, of which only the name has to be there. -/
def ofDocument? (c : Convention) (d : Document) : Option VertexSpec := do
  let [name, parallelism, coLocation, snapshot] ← d.slots c keys | none
  return {
    name := ← name.required Document.text?
    parallelism := ← parallelism.optional Document.word?
    coLocationGroup := ← coLocation.optional Document.text?
    snapshotGroup := ← snapshot.optional Document.text? }

end VertexSpec

namespace EdgeSpec

/-- The keys of an edge. -/
def keys : List String := ["from", "to", "pattern", "result"]

/-- The fields of an edge. -/
def toDocument (e : EdgeSpec) : Document :=
  .table [
    ("from", .text e.source),
    ("to", .text e.target),
    ("pattern", .text e.pattern.name),
    ("result", .text e.kind.name)]

/-- Reads an edge, of which only the two ends have to be there. -/
def ofDocument? (c : Convention) (d : Document) : Option EdgeSpec := do
  let [source, target, pattern, kind] ← d.slots c keys | none
  return {
    source := ← source.required Document.text?
    target := ← target.required Document.text?
    pattern :=
      ← pattern.withDefault .allToAll (Document.name? c Pattern.ofName?)
    kind :=
      ← kind.withDefault .pipelined (Document.name? c ResultKind.ofName?) }

end EdgeSpec

namespace JobDefinition

/-- The keys of a definition. -/
def keys : List String :=
  ["name", "default_parallelism", "vertices", "edges", "states"]

/-- The fields of a definition, with the states in the order of their keys. -/
def toDocument (d : JobDefinition) : Document :=
  .table [
    ("name", .text d.name),
    ("default_parallelism", .ofNat d.defaultParallelism),
    ("vertices", .list (d.vertices.map VertexSpec.toDocument)),
    ("edges", .list (d.edges.map EdgeSpec.toDocument)),
    ("states", .table
      (d.states.toList.map fun (key, state) => (key, .text state.name)))]

/-- Reads initial states; they are kept in the order of their keys. -/
def statesOfDocument? (c : Convention) (d : Document) :
    Option InitialStates := do
  let states ← d.table? (Document.name? c TaskState.ofName?)
  return .ofList states

/-- Reads a definition, of which only the name has to be there. -/
def ofDocument? (c : Convention) (d : Document) : Option JobDefinition := do
  let [name, defaultParallelism, vertices, edges, states] ←
    d.slots c keys | none
  return {
    name := ← name.required Document.text?
    defaultParallelism :=
      ← defaultParallelism.withDefault 1 Document.word?
    vertices := ← vertices.withDefault []
      (Document.list? (VertexSpec.ofDocument? c))
    edges := ← edges.withDefault []
      (Document.list? (EdgeSpec.ofDocument? c))
    states := ← states.withDefault ∅ (statesOfDocument? c) }

end JobDefinition

end ControlPlane
