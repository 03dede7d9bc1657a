import ControlPlane.Definition.Load
import ControlPlane.Definition.Record
import ControlPlane.Inspection.Failure
import ControlPlane.Toml.Reader
import ControlPlane.Topology.Build

/-! # Jobs under inspection

A job file expanded into its topology, with its tasks in their initial
states. Tasks and partitions are named the way job files name them. -/
namespace ControlPlane

namespace JobDefinition

/-- Reads the text of a job file. -/
def parse (text : String) (lookup : Lookup) : Except Error JobDefinition :=
  match (Toml.read? text).bind (ofDocument? .toml) with
  | none => .error (.invalidGraph .unreadable)
  | some d => do
    let d ← d.override lookup
    d.validate
    return d

/-- Reads a job file, given its content or why there is none. -/
def readFile (path : String) (content : Except String String)
    (lookup : Lookup) : Except Error JobDefinition :=
  match content with
  | .error cause => .error (.file path cause)
  | .ok text => parse text lookup

end JobDefinition

namespace Inspection

/-- A job under inspection. -/
structure Job where
  loaded : LoadedJob
  topology : Topology
  /-- The names of the vertices by id. -/
  names : Std.TreeMap VertexId String

/-- What the program takes from its surroundings. -/
structure Surroundings where
  /-- The variables of the environment. -/
  lookup : Lookup
  /-- The content of a file, or why it cannot be read. -/
  content : String → Except String String
  supply : IdSupply

namespace Job

/-- Opens the job of a definition. -/
def ofDefinition (supply : IdSupply) (definition : JobDefinition) :
    Result Job := do
  let loaded ← within "failed to build job graph" (definition.load supply)
  let topology ← within "failed to build execution topology"
    (Topology.ofJobGraph loaded.graph)
  let (topology, applied) := loaded.applyInitialStates topology
  let _ ← within "failed to apply task states" applied
  let names := loaded.vertexIds.foldl
    (fun names name id => names.insert id name) ∅
  return { loaded, topology, names }

/-- Opens a job file. -/
def ofFile (s : Surroundings) (path : String) : Result Job := do
  let definition ← within s!"failed to load job file {path}"
    (JobDefinition.readFile path (s.content path) s.lookup)
  ofDefinition s.supply definition

/-- The name of the job. -/
def name (job : Job) : String := job.loaded.graph.name

/-! ## Names of tasks and partitions -/

/-- The name of a vertex. -/
def vertexName (job : Job) (id : VertexId) : String :=
  job.names.getD id id.hex

/-- The key of a task. -/
def taskKey (job : Job) (id : TaskId) : String :=
  match job.names[id.vertex]? with
  | some name => s!"{name}:{id.subtask}"
  | none => toString id

/-- The texts between the colons of a text. -/
def splitColons (s : String) : List String :=
  (s.toList.splitOn ':').map String.ofList

/-- The producer, the subtask and the output in a key
`PRODUCER:SUBTASK[:OUTPUT]`. Without an output the first one is meant. -/
def partitionParts (key : String) : Result (String × String × String) :=
  match splitColons key with
  | [producer, subtask] => .ok (producer, subtask, "0")
  | [producer, subtask, output] => .ok (producer, subtask, output)
  | _ =>
    refuse <| s!"invalid partition '{key}', " ++
      "expected PRODUCER:SUBTASK[:OUTPUT]"

/-- The dataset that a vertex produces through one of its outputs. -/
def output (job : Job) (producer : String) (index : Nat) :
    Result DataSetId := do
  match job.loaded.vertexIds[producer]? with
  | none => refuse s!"unknown vertex '{producer}'"
  | some id =>
    let vertex ← (job.loaded.graph.vertex id).mapError fun e =>
      { message := e.message }
    match vertex.produced[index]? with
    | some dataSet => return dataSet
    | none =>
      refuse <| s!"'{producer}' has {vertex.produced.length} outputs, " ++
        s!"no output {index}"

/-- The partition that a key names. The output counts the edges that leave
the producer, in the order they are written in. -/
def partitionId (job : Job) (key : String) : Result PartitionId := do
  let (producer, subtask, output) ← partitionParts key
  let number ← withinNumeral s!"invalid subtask in '{key}'"
    (Text.numeral32 subtask)
  let index ← withinNumeral s!"invalid output index in '{key}'"
    (Text.numeral64 output)
  let dataSet ← job.output producer index
  return ⟨dataSet, number⟩

end Job

end Inspection

end ControlPlane
