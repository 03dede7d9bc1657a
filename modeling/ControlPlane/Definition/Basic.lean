import ControlPlane.Error
import ControlPlane.Exchange
import ControlPlane.TaskState
import ControlPlane.Text.Numeral

/-! # Job definitions

A job as its author writes it down: vertices and edges by name, and the
states its tasks start in. A state is given for a whole vertex under
`name`, or for one subtask under `name:index`. -/
namespace ControlPlane

/-- A vertex by name. -/
structure VertexSpec where
  name : String
  /-- The number of subtasks, if not the default one. -/
  parallelism : Option Nat := none
  coLocationGroup : Option String := none
  snapshotGroup : Option String := none
deriving DecidableEq, Inhabited, Repr

/-- An edge between names. -/
structure EdgeSpec where
  source : String
  target : String
  pattern : Pattern := .allToAll
  kind : ResultKind := .pipelined
deriving DecidableEq, Inhabited, Repr

/-- The initial states under their keys, in the order of the keys. -/
abbrev InitialStates := Std.TreeMap String TaskState

/-- A job by the names its author gave. -/
structure JobDefinition where
  name : String
  /-- The parallelism of vertices that state none. -/
  defaultParallelism : Nat := 1
  vertices : List VertexSpec := []
  edges : List EdgeSpec := []
  states : InitialStates := ∅

/-! ## Task keys -/

/-- The texts before and behind the first colon, if there is one. -/
def splitColon (key : String) : String × Option String :=
  let (front, rest) := key.toList.span (· ≠ ':')
  (String.ofList front,
    match rest with
    | [] => none
    | _ :: behind => some (String.ofList behind))

/-- The vertex that a key names, and the subtask if it names one. -/
def splitTaskKey (key : String) : Except Error (String × Option Nat) :=
  match splitColon key with
  | (name, none) => .ok (name, none)
  | (name, some index) =>
    match Text.numeral32 index with
    | .ok subtask => .ok (name, some subtask)
    | .error _ => .error (.invalidGraph (.invalidSubtask key))

namespace JobDefinition

/-! ## Looking up -/

/-- The vertex with a name. -/
def vertex? (d : JobDefinition) (name : String) : Option VertexSpec :=
  d.vertices.find? (·.name = name)

/-- The number of subtasks of a vertex. -/
def parallelismOf (d : JobDefinition) (v : VertexSpec) : Nat :=
  v.parallelism.getD d.defaultParallelism

/-! ## Validation -/

/-- Checks that vertex names are not empty, have no colon, and are
different. -/
def checkNames : List String → List String → Except Error Unit
  | _, [] => .ok ()
  | seen, name :: names =>
    if name.isEmpty || name.toList.contains ':' then
      .error (.invalidGraph (.invalidName name))
    else if name ∈ seen then .error (.invalidGraph (.duplicateName name))
    else checkNames (name :: seen) names

/-- Checks that every vertex has subtasks. -/
def checkParallelism (d : JobDefinition) : Except Error Unit :=
  d.vertices.forM fun v =>
    if d.parallelismOf v = 0 then
      .error (.invalidGraph (.noSubtasks v.name))
    else .ok ()

/-- Checks that the ends of every edge exist. -/
def checkEdges (d : JobDefinition) : Except Error Unit :=
  d.edges.forM fun edge =>
    [edge.source, edge.target].forM fun name =>
      if (d.vertex? name).isSome then .ok ()
      else
        .error (.invalidGraph (.danglingEdge edge.source edge.target name))

/-- Checks that a key names a task of the job. -/
def checkStateKey (d : JobDefinition) (key : String) : Except Error Unit := do
  let (name, subtask) ← splitTaskKey key
  match d.vertex? name with
  | none => throw (.invalidGraph (.stateOfUnknown name))
  | some v =>
    let parallelism := d.parallelismOf v
    if subtask.any (parallelism ≤ ·) then
      throw (.invalidGraph (.stateOutOfRange key name parallelism))

/-- Checks that a definition is a job: names first, then parallelism, then
edges, then states. -/
def validate (d : JobDefinition) : Except Error Unit := do
  checkNames [] (d.vertices.map (·.name))
  d.checkParallelism
  d.checkEdges
  d.states.keys.forM d.checkStateKey

end JobDefinition

end ControlPlane
