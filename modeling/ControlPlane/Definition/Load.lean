import ControlPlane.Config
import ControlPlane.Definition.Basic
import ControlPlane.IdSupply
import ControlPlane.JobGraph.Basic
import ControlPlane.Topology.Attempts

/-! # From a definition to a job

A definition becomes a job graph with fresh ids. The names stay known, so
tasks can be addressed by key and brought into their initial states. -/
namespace ControlPlane

/-- A job graph with the ids of its vertices by name. -/
structure LoadedJob where
  graph : JobGraph
  vertexIds : Std.TreeMap String VertexId := ∅
  states : InitialStates := ∅

namespace JobDefinition

/-- The key whose value replaces the default parallelism. -/
def parallelismKey : String := "SLUICE_DEFAULT_PARALLELISM"

/-- Replaces the default parallelism by the one the source gives. -/
def override (d : JobDefinition) (lookup : Lookup) :
    Except Error JobDefinition :=
  match Config.nonempty lookup parallelismKey with
  | none => .ok d
  | some raw =>
    match Text.numeral32 raw with
    | .ok defaultParallelism => .ok { d with defaultParallelism }
    | .error _ => .error (.config (.invalidValue raw parallelismKey))

/-! ## Building the graph -/

/-- Adds a vertex under an id, with its groups. -/
def addVertex (d : JobDefinition) (supply : IdSupply) (job : LoadedJob)
    (entry : VertexSpec × Nat) : Except Error LoadedJob := do
  let (v, number) := entry
  let id := supply.vertex number
  let graph := job.graph.addVertex id v.name (d.parallelismOf v)
  let graph ← match v.coLocationGroup with
    | some group => graph.setCoLocationGroup id group
    | none => pure graph
  let graph ← match v.snapshotGroup with
    | some group => graph.setSnapshotGroup id group
    | none => pure graph
  return { job with graph, vertexIds := job.vertexIds.insert v.name id }

end JobDefinition

namespace LoadedJob

/-- The id of the vertex with a name. -/
def vertexId (job : LoadedJob) (name : String) : Except Error VertexId :=
  match job.vertexIds[name]? with
  | some id => .ok id
  | none => .error (.invalidGraph (.unknownName name))

/-- Adds an edge under an id. -/
def addEdge (supply : IdSupply) (job : LoadedJob)
    (entry : EdgeSpec × Nat) : Except Error LoadedJob := do
  let (e, number) := entry
  let producer ← job.vertexId e.source
  let consumer ← job.vertexId e.target
  let graph ← job.graph.connect (supply.dataSet number) producer consumer
    e.pattern e.kind
  return { job with graph }

end LoadedJob

/-- Builds the job graph of a definition. Vertices and edges are added in
the order they are written in, which fixes the inputs of every vertex. -/
def JobDefinition.load (d : JobDefinition) (supply : IdSupply) :
    Except Error LoadedJob := do
  let job : LoadedJob := { graph := { name := d.name }, states := d.states }
  let job ← d.vertices.zipIdx.foldlM (d.addVertex supply) job
  d.edges.zipIdx.foldlM (LoadedJob.addEdge supply) job

namespace LoadedJob

/-! ## Tasks by key -/

/-- The task that a key names; a bare vertex name means its first task. -/
def taskId (job : LoadedJob) (key : String) : Except Error TaskId := do
  let (name, subtask) ← splitTaskKey key
  let vertex ← job.vertexId name
  return ⟨vertex, subtask.getD 0⟩

/-- The tasks of a topology that a state key names. -/
def tasksOfKey (job : LoadedJob) (t : Topology) (key : String) :
    Except Error (List TaskId) := do
  let (name, subtask) ← splitTaskKey key
  let vertex ← job.vertexId name
  match subtask with
  | some subtask => return [⟨vertex, subtask⟩]
  | none =>
    let operator ← t.operator vertex
    return (List.range operator.parallelism).map (⟨vertex, ·⟩)

/-! ## Initial states -/

/-- Brings a task into a state, with an attempt if it has none yet. -/
def applyState (t : Topology) (id : TaskId) (state : TaskState) :
    Topology × Except Error Unit :=
  match t.task id with
  | .error e => (t, .error e)
  | .ok task =>
    let started := if task.attempt.isSome then .ok t
      else (t.attachAttempt id).map (·.1)
    match started with
    | .error e => (t, .error e)
    | .ok t =>
      match t.transition id state with
      | .error e => (t, .error e)
      | .ok (t, _) => (t, .ok ())

/-- Brings tasks into a state, up to the first that is unknown. Returns
their number beside the topology. -/
def applyStates (state : TaskState) :
    List TaskId → Nat → Topology → Topology × Except Error Nat
  | [], applied, t => (t, .ok applied)
  | id :: ids, applied, t =>
    match applyState t id state with
    | (t, .error e) => (t, .error e)
    | (t, .ok ()) => applyStates state ids (applied + 1) t

/-- Works through state keys in order, up to the first failure. -/
def applyKeys (job : LoadedJob) :
    List (String × TaskState) → Nat → Topology → Topology × Except Error Nat
  | [], applied, t => (t, .ok applied)
  | (key, state) :: rest, applied, t =>
    match job.tasksOfKey t key with
    | .error e => (t, .error e)
    | .ok ids =>
      match applyStates state ids applied t with
      | (t, .error e) => (t, .error e)
      | (t, .ok applied) => applyKeys job rest applied t

/-- Brings the tasks that have an initial state into it, and returns how
often a state was set. Of two keys that name a task the later one
prevails. -/
def applyInitialStates (job : LoadedJob) (t : Topology) :
    Topology × Except Error Nat :=
  job.applyKeys job.states.toList 0 t

end LoadedJob

end ControlPlane
