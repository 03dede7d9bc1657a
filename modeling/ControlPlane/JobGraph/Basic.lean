import ControlPlane.Error
import ControlPlane.Exchange

/-! # Job graphs

The logical graph of a job: operators with a parallelism, connected by
edges. Every edge carries a dataset of its own, so a dataset is read
through exactly one edge. Ids of new vertices and datasets are drawn by
the caller and expected to be fresh. -/
namespace ControlPlane

/-- A connection from the dataset of a producer into a consumer. -/
structure JobEdge where
  source : DataSetId
  producer : VertexId
  target : VertexId
  pattern : Pattern
  kind : ResultKind
deriving DecidableEq, Inhabited, Repr

/-- A logical operator. -/
structure JobVertex where
  id : VertexId
  name : String
  /-- The number of subtasks. -/
  parallelism : Nat
  /-- The inbound edges, in the order their partition groups are wired. -/
  inputs : List JobEdge := []
  /-- The datasets produced, one per outbound edge. -/
  produced : List DataSetId := []
  /-- Vertices of one group keep equal subtasks in one region. -/
  coLocationGroup : Option String := none
  /-- The checkpoint scope the vertex takes part in. -/
  snapshotGroup : Option String := none
deriving DecidableEq, Inhabited, Repr

/-- Vertices without inputs receive checkpoint barriers directly. -/
def JobVertex.isInput (v : JobVertex) : Bool := v.inputs.isEmpty

/-- A job graph: its vertices in insertion order, and where to find each
vertex by id. The index is not part of the written form of a graph and has
to be rebuilt by `reindex` after reading one. -/
structure JobGraph where
  name : String
  vertices : List JobVertex := []
  positions : Std.TreeMap VertexId Nat := ∅

namespace JobGraph

/-! ## Looking up -/

/-- The position of an indexed vertex. -/
def position (g : JobGraph) (id : VertexId) : Except Error Nat :=
  match g.positions[id]? with
  | some pos => .ok pos
  | none => .error (.unknownVertex id)

/-- The vertex with an id. -/
def vertex (g : JobGraph) (id : VertexId) : Except Error JobVertex :=
  match g.positions[id]?.bind (g.vertices[·]?) with
  | some v => .ok v
  | none => .error (.unknownVertex id)

/-- The first vertex with a name. -/
def findByName? (g : JobGraph) (name : String) : Option JobVertex :=
  g.vertices.find? (·.name = name)

/-- The edges of the graph, consumer by consumer in insertion order. -/
def edges (g : JobGraph) : List JobEdge := g.vertices.flatMap (·.inputs)

/-- The edges leaving a vertex. -/
def outputsOf (g : JobGraph) (id : VertexId) : List JobEdge :=
  g.edges.filter (·.producer = id)

/-! ## Building -/

/-- Adds an operator under a fresh id. -/
def addVertex (g : JobGraph) (id : VertexId) (name : String)
    (parallelism : Nat) : JobGraph :=
  { g with
    vertices := g.vertices ++ [{ id, name, parallelism }]
    positions := g.positions.insert id g.vertices.length }

/-- Wires a producer into a consumer through a fresh dataset. -/
def connect (g : JobGraph) (dataSet : DataSetId) (producer consumer : VertexId)
    (pattern : Pattern) (kind : ResultKind) : Except Error JobGraph := do
  if producer = consumer then
    throw (.invalidGraph (.selfLoop producer))
  let source ← g.position producer
  let sink ← g.position consumer
  let edge : JobEdge :=
    { source := dataSet, producer, target := consumer, pattern, kind }
  let vertices := g.vertices
    |>.modify source (fun v => { v with produced := v.produced ++ [dataSet] })
    |>.modify sink (fun v => { v with inputs := v.inputs ++ [edge] })
  return { g with vertices }

/-- Changes one vertex in place. -/
def updateVertex (g : JobGraph) (id : VertexId) (f : JobVertex → JobVertex) :
    Except Error JobGraph := do
  let pos ← g.position id
  return { g with vertices := g.vertices.modify pos f }

/-- Puts a vertex into a co-location group. -/
def setCoLocationGroup (g : JobGraph) (id : VertexId) (group : String) :
    Except Error JobGraph :=
  g.updateVertex id ({ · with coLocationGroup := some group })

/-- Puts a vertex into a snapshot group. -/
def setSnapshotGroup (g : JobGraph) (id : VertexId) (group : String) :
    Except Error JobGraph :=
  g.updateVertex id ({ · with snapshotGroup := some group })

/-- Changes the number of subtasks of a vertex. -/
def setParallelism (g : JobGraph) (id : VertexId) (parallelism : Nat) :
    Except Error JobGraph :=
  g.updateVertex id ({ · with parallelism })

/-- Rebuilds the id index; of several vertices with one id the last wins. -/
def reindex (g : JobGraph) : JobGraph :=
  { g with
    positions := g.vertices.zipIdx.foldl
      (fun index (v, pos) => index.insert v.id pos) ∅ }

end JobGraph

end ControlPlane
