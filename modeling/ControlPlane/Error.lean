import ControlPlane.Ident

/-! # Errors of the control plane

Every failure is a cause with the data it is about. The wording of all of
them is in the `message` functions of this module. -/
namespace ControlPlane

/-- What is wrong with a job graph or with the definition it comes from. -/
inductive GraphDefect where
  /-- An edge leads from a vertex to itself. -/
  | selfLoop (vertex : VertexId)
  /-- A vertex has no subtasks. -/
  | noSubtasks (name : String)
  /-- An input edge names a producer that the graph does not index. -/
  | unknownProducer (name : String) (producer : VertexId)
  /-- The named vertices wait for each other. -/
  | cycle (names : List String)
  /-- A producer lacks partitions of a dataset that is read from it. -/
  | missingPartitions (dataSet : DataSetId) (producer : String)
  /-- A vertex name is empty or has a colon. -/
  | invalidName (name : String)
  /-- Two vertices have one name. -/
  | duplicateName (name : String)
  /-- An end of an edge names no vertex. -/
  | danglingEdge (source target missing : String)
  /-- A state is given for a vertex that does not exist. -/
  | stateOfUnknown (name : String)
  /-- A state is given for a subtask that does not exist. -/
  | stateOutOfRange (key name : String) (parallelism : Nat)
  /-- The part of a task key after the colon is no subtask index. -/
  | invalidSubtask (key : String)
  /-- A task key names no vertex. -/
  | unknownName (name : String)
  /-- The text of a job file is no job definition. -/
  | unreadable
  /-- Any other defect, in words. -/
  | stated (text : String)
deriving DecidableEq, Repr

/-- Why a job vertex cannot be given more subtasks. -/
inductive RescaleDefect where
  /-- An edge of the vertex has fixed wiring. -/
  | pointwise (name : String) (dataSet : DataSetId)
  /-- The new parallelism would exceed the greatest one. -/
  | tooLarge (name : String) (parallelism additional : Nat)
  /-- Any other reason, in words. -/
  | stated (text : String)
deriving DecidableEq, Repr

/-- Which co-located subtasks are torn apart. -/
inductive CoLocationDefect where
  /-- One subtask of a group lies in two regions. -/
  | split (subtask : Nat) (group : String) (first second : Nat)
  /-- Any other violation, in words. -/
  | stated (text : String)
deriving DecidableEq, Repr

/-- What is wrong with a configuration value. -/
inductive ConfigDefect where
  /-- The value of a numeric key is no number in range. -/
  | invalidValue (raw key : String)
  /-- The value of a switch is none of the words for on and off. -/
  | invalidBoolean (raw key : String)
  /-- No failover strategy has this name. -/
  | unknownFailover (name : String)
  /-- No release strategy has this name. -/
  | unknownRelease (name : String)
  /-- The key needs a number greater than zero. -/
  | zero (key : String)
  /-- Any other defect, in words. -/
  | stated (text : String)
deriving DecidableEq, Repr

/-- A failure of an operation of the control plane. -/
inductive Error where
  /-- The text is no id. -/
  | invalidId (text : String)
  /-- No task of the topology has this id. -/
  | unknownTask (id : TaskId)
  /-- No job vertex has this id. -/
  | unknownVertex (id : VertexId)
  /-- No partition of the topology has this id. -/
  | unknownPartition (id : PartitionId)
  /-- The task was never started. -/
  | noAttempt (id : TaskId)
  /-- The job graph cannot be run. -/
  | invalidGraph (defect : GraphDefect)
  /-- Co-located subtasks lie in different regions. -/
  | coLocation (defect : CoLocationDefect)
  /-- The job vertex cannot be rescaled. -/
  | rescale (defect : RescaleDefect)
  /-- A file could not be read. -/
  | file (path cause : String)
  /-- The configuration is not valid. -/
  | config (defect : ConfigDefect)
  /-- Any other failure, in words. -/
  | other (text : String)
deriving DecidableEq, Repr

/-- The wording of a graph defect. -/
def GraphDefect.message : GraphDefect → String
  | selfLoop vertex => s!"vertex {vertex} cannot consume its own output"
  | noSubtasks name => s!"vertex '{name}' has parallelism 0"
  | unknownProducer name producer =>
    s!"vertex '{name}' consumes from unknown vertex {producer}"
  | cycle names =>
    "cycle detected among vertices: " ++ " -> ".intercalate names
  | missingPartitions dataSet producer =>
    s!"dataset {dataSet} is missing partitions of producer '{producer}'"
  | invalidName name => s!"invalid vertex name '{name}'"
  | duplicateName name => s!"duplicate vertex '{name}'"
  | danglingEdge source target missing =>
    s!"edge {source} -> {target} references unknown vertex '{missing}'"
  | stateOfUnknown name => s!"state for unknown vertex '{name}'"
  | stateOutOfRange key name parallelism =>
    s!"state for '{key}' but '{name}' has parallelism {parallelism}"
  | invalidSubtask key => s!"invalid subtask in '{key}'"
  | unknownName name => s!"unknown vertex '{name}'"
  | unreadable => "failed to parse job file"
  | stated text => text

/-- The wording of a rescale defect. -/
def RescaleDefect.message : RescaleDefect → String
  | pointwise name dataSet =>
    s!"'{name}' is connected POINTWISE through dataset {dataSet}"
  | tooLarge name parallelism additional =>
    s!"'{name}' cannot grow from {parallelism} by {additional} subtasks"
  | stated text => text

/-- The wording of a co-location defect. -/
def CoLocationDefect.message : CoLocationDefect → String
  | split subtask group first second =>
    s!"subtask {subtask} of co-location group '{group}' " ++
      s!"spans regions {first} and {second}"
  | stated text => text

/-- The wording of a configuration defect. -/
def ConfigDefect.message : ConfigDefect → String
  | invalidValue raw key => s!"invalid value '{raw}' for {key}"
  | invalidBoolean raw key => s!"invalid boolean '{raw}' for {key}"
  | unknownFailover name =>
    s!"unknown failover strategy '{name}', expected 'region' or 'full'"
  | unknownRelease name =>
    s!"unknown partition release strategy '{name}', " ++
      "expected 'region' or 'never'"
  | zero key => s!"{key} must be at least 1"
  | stated text => text

namespace Error

/-- The wording of an error. -/
def message : Error → String
  | invalidId text => s!"Invalid id: {text}"
  | unknownTask id => s!"Unknown execution vertex: {id}"
  | unknownVertex id => s!"Unknown job vertex: {id}"
  | unknownPartition id => s!"Unknown result partition: {id}"
  | noAttempt id => s!"Execution vertex {id} has no execution attempt"
  | invalidGraph defect => s!"Invalid job graph: {defect.message}"
  | coLocation defect =>
    "Co-located tasks must be in the same pipelined region: " ++
      defect.message
  | rescale defect => s!"Unsupported rescale: {defect.message}"
  | file path cause => s!"IO error reading {path}: {cause}"
  | config defect => s!"Config error: {defect.message}"
  | other text => text

instance : ToString Error := ⟨message⟩

/-- Whether the error says that an id is unknown, which points at a broken
invariant rather than at bad input. -/
def isInvariantViolation : Error → Bool
  | unknownTask _ | unknownVertex _ | unknownPartition _ => true
  | _ => false

end Error

end ControlPlane
