import ControlPlane.JobGraph.Basic
import ControlPlane.TaskState

/-! # Execution topology

The parallel tasks of a job, their partitions and their pipelined regions.
Everything is stored in dense arrays and addressed by position; ids are
resolved through indexes at the boundary. -/
namespace ControlPlane

/-! ## Dense positions -/

/-- Position of a task in the topology. -/
abbrev TaskIndex := Nat

/-- Position of a partition in the topology. -/
abbrev PartitionIndex := Nat

/-- Position of a consumed partition group in the topology. -/
abbrev GroupIndex := Nat

/-- Position of a consumer group in the topology. -/
abbrev ConsumerGroupIndex := Nat

/-- Position of a pipelined region in the topology. -/
abbrev RegionIndex := Nat

/-! ## Parts -/

/-- One execution attempt of a task. -/
structure Attempt where
  number : Nat
  state : TaskState
deriving DecidableEq, Inhabited, Repr

/-- An attempt counts as finished for checkpoints once it has ended. -/
def Attempt.isFinished (a : Attempt) : Bool := a.state.isTerminal

/-- One parallel instance of an operator. -/
structure Task where
  id : TaskId
  produced : List PartitionIndex := []
  /-- The groups consumed, in the order of the input edges. -/
  consumed : List GroupIndex := []
  attempt : Option Attempt := none
  attemptsStarted : Nat := 0
deriving DecidableEq, Inhabited, Repr

/-- The state of the current attempt; a task that was never started is
in the created state. -/
def Task.state (t : Task) : TaskState :=
  (t.attempt.map (·.state)).getD .created

/-- A produced partition of a dataset. -/
structure Partition where
  id : PartitionId
  kind : ResultKind
  producer : TaskIndex
  consumerGroups : List ConsumerGroupIndex := []
deriving DecidableEq, Inhabited, Repr

/-- Partitions of one dataset that are read together by the same tasks. -/
structure PartitionGroup where
  dataSet : DataSetId
  kind : ResultKind
  pattern : Pattern
  partitions : List PartitionIndex
  consumerGroup : ConsumerGroupIndex
deriving DecidableEq, Inhabited, Repr

/-- The tasks that read one partition group. -/
structure ConsumerGroup where
  tasks : List TaskIndex
  partitionGroup : GroupIndex
deriving DecidableEq, Inhabited, Repr

/-- Tasks connected by pipelined exchanges, restarted as a unit. -/
structure PipelinedRegion where
  index : RegionIndex
  tasks : List TaskIndex
  /-- The blocking groups read by a task of the region, ascending. -/
  blockingGroups : List GroupIndex
deriving DecidableEq, Inhabited, Repr

/-- An operator of the running job: its subtasks and inbound edges. -/
structure Operator where
  id : VertexId
  name : String
  parallelism : Nat
  /-- The subtasks, by subtask number. -/
  tasks : List TaskIndex
  inputs : List JobEdge
  coLocationGroup : Option String
  snapshotGroup : Option String
deriving DecidableEq, Inhabited, Repr

/-- Operators without inputs receive checkpoint barriers directly. -/
def Operator.isInput (o : Operator) : Bool := o.inputs.isEmpty

/-- The scheduling view of a running job. -/
structure Topology where
  graph : JobGraph
  /-- The operators, in topological order. -/
  operators : List Operator := []
  operatorIndex : Std.TreeMap VertexId Nat := ∅
  tasks : Array Task := #[]
  taskIndex : Std.TreeMap TaskId TaskIndex := ∅
  partitions : Array Partition := #[]
  partitionIndex : Std.TreeMap PartitionId PartitionIndex := ∅
  groups : Array PartitionGroup := #[]
  consumerGroups : Array ConsumerGroup := #[]
  dataSetGroups : Std.TreeMap DataSetId (List GroupIndex) := ∅
  regions : Array PipelinedRegion := #[]
  /-- The region of every task. -/
  regionOf : Array RegionIndex := #[]

namespace Topology

/-! ## Resolving ids -/

/-- The position of a task. -/
def taskAt (t : Topology) (id : TaskId) : Except Error TaskIndex :=
  match t.taskIndex[id]? with
  | some index => .ok index
  | none => .error (.unknownTask id)

/-- The task with an id. -/
def task (t : Topology) (id : TaskId) : Except Error Task :=
  match t.taskIndex[id]?.bind (t.tasks[·]?) with
  | some task => .ok task
  | none => .error (.unknownTask id)

/-- The position of a partition. -/
def partitionAt (t : Topology) (id : PartitionId) :
    Except Error PartitionIndex :=
  match t.partitionIndex[id]? with
  | some index => .ok index
  | none => .error (.unknownPartition id)

/-- The partition with an id. -/
def partition (t : Topology) (id : PartitionId) : Except Error Partition :=
  match t.partitionIndex[id]?.bind (t.partitions[·]?) with
  | some partition => .ok partition
  | none => .error (.unknownPartition id)

/-- The position of an operator in topological order. -/
def operatorAt (t : Topology) (id : VertexId) : Except Error Nat :=
  match t.operatorIndex[id]? with
  | some pos => .ok pos
  | none => .error (.unknownVertex id)

/-- The operator with an id. -/
def operator (t : Topology) (id : VertexId) : Except Error Operator :=
  match t.operatorIndex[id]?.bind (t.operators[·]?) with
  | some operator => .ok operator
  | none => .error (.unknownVertex id)

/-- The region of a task. -/
def regionOfTask (t : Topology) (id : TaskId) :
    Except Error PipelinedRegion := do
  let index ← t.taskAt id
  match t.regionOf[index]?.bind (t.regions[·]?) with
  | some region => return region
  | none => throw (.unknownTask id)

/-! ## Following positions -/

/-- The tasks at the given positions. -/
def tasksOf (t : Topology) (indices : List TaskIndex) : List Task :=
  indices.filterMap (t.tasks[·]?)

/-- The partitions at the given positions. -/
def partitionsOf (t : Topology) (indices : List PartitionIndex) :
    List Partition :=
  indices.filterMap (t.partitions[·]?)

/-- The partition groups at the given positions. -/
def groupsOf (t : Topology) (indices : List GroupIndex) :
    List PartitionGroup :=
  indices.filterMap (t.groups[·]?)

/-- The tasks of a region, in order of position. -/
def regionTasks (t : Topology) (region : RegionIndex) : List Task :=
  match t.regions[region]? with
  | some region => t.tasksOf region.tasks
  | none => []

end Topology

end ControlPlane
