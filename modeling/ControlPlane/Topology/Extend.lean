import ControlPlane.Ascending
import ControlPlane.Topology.Expand

/-! # Extending a region

Grows a running topology by further subtasks of one operator. They join the
region and the consumer groups of a sibling, and their partitions join the
groups of the datasets they produce. Only operators whose edges are all
fully wired can grow; anything else is rejected before the topology
changes. -/
namespace ControlPlane.Topology

/-- The greatest parallelism of an operator. -/
def maxParallelism : Nat := 1 <<< 32 - 1

/-- Registers a partition of a dataset with the groups of the dataset. -/
def joinGroups (t : Topology) (partition : PartitionIndex)
    (dataSet : DataSetId) : Topology :=
  (t.dataSetGroups.getD dataSet []).foldl (fun t group =>
    match t.groups[group]? with
    | none => t
    | some g =>
      { t with
        groups := t.groups.modify group fun g =>
          { g with partitions := g.partitions ++ [partition] }
        partitions := t.partitions.modify partition fun p =>
          { p with
            consumerGroups := p.consumerGroups ++ [g.consumerGroup] } }) t

/-- Adds a task to the consumer group of every group it consumes. -/
def joinConsumers (t : Topology) (index : TaskIndex)
    (consumed : List GroupIndex) : Topology :=
  { t with
    consumerGroups := (t.groupsOf consumed).foldl (fun cs group =>
      cs.modify group.consumerGroup fun c =>
        { c with tasks := c.tasks ++ [index] }) t.consumerGroups }

/-- Appends one subtask of the operator at a position. -/
def appendSubtask (vertex : VertexId) (pos : Nat) (consumed : List GroupIndex)
    (outputs : List JobEdge) (t : Topology) (subtask : Nat) : Topology :=
  let id : TaskId := ⟨vertex, subtask⟩
  let index := t.tasks.size
  let t := { t with
    tasks := t.tasks.push { id, consumed }
    taskIndex := t.taskIndex.insert id index
    operators := t.operators.modify pos fun o =>
      { o with tasks := o.tasks ++ [index] } }
  let t := t.joinConsumers index consumed
  outputs.foldl (fun t edge =>
    let partition := t.partitions.size
    (t.addPartition index edge subtask).joinGroups partition edge.source) t

/-- Puts appended tasks into a region. -/
def joinRegion (t : Topology) (region : RegionIndex)
    (added : List TaskIndex) : Topology :=
  { t with
    regionOf := added.foldl (fun r _ => r.push region) t.regionOf
    regions := t.regions.modify region fun r =>
      { r with tasks := ascending (r.tasks ++ added) } }

/-- A task with its operator, beside which further subtasks are placed. -/
structure Sibling where
  index : TaskIndex
  task : Task
  /-- The position of the operator. -/
  pos : Nat
  operator : Operator
deriving DecidableEq, Inhabited, Repr

/-- The sibling with an id. -/
def sibling (t : Topology) (id : TaskId) : Except Error Sibling := do
  let index ← t.taskAt id
  let task ← t.task id
  let pos ← t.operatorAt id.vertex
  let operator ← t.operator id.vertex
  return { index, task, pos, operator }

/-- Checks that an operator with the given outputs can grow. -/
def checkGrowth (operator : Operator) (outputs : List JobEdge)
    (additional : Nat) : Except Error Unit :=
  match (operator.inputs ++ outputs).find? (·.pattern ≠ .allToAll) with
  | some edge => .error (.rescale (.pointwise operator.name edge.source))
  | none =>
    if 0 < additional ∧ maxParallelism < operator.parallelism + additional
    then
      .error (.rescale
        (.tooLarge operator.name operator.parallelism additional))
    else .ok ()

/-- Appends subtasks beside a sibling, in its region. The job graph is left
as it is. -/
def grow (t : Topology) (s : Sibling) (outputs : List JobEdge)
    (additional : Nat) : Topology :=
  let first := s.operator.parallelism
  let subtasks := (List.range additional).map (first + ·)
  let added := (List.range additional).map (t.tasks.size + ·)
  let region := t.regionOf[s.index]?.getD 0
  let t := subtasks.foldl
    (appendSubtask s.operator.id s.pos s.task.consumed outputs) t
  let t := t.joinRegion region added
  { t with
    operators := t.operators.modify s.pos
      ({ · with parallelism := first + additional }) }

/-- Appends further subtasks of the sibling's operator and places them in
the sibling's region. Returns the topology afterwards beside the ids of the
new subtasks; the job graph learns the new parallelism last. -/
def extendRegion (t : Topology) (sibling : TaskId) (additional : Nat) :
    Topology × Except Error (List TaskId) :=
  match t.sibling sibling with
  | .error e => (t, .error e)
  | .ok s =>
    let outputs := t.graph.outputsOf sibling.vertex
    match checkGrowth s.operator outputs additional with
    | .error e => (t, .error e)
    | .ok () =>
      if additional = 0 then (t, .ok [])
      else
        let first := s.operator.parallelism
        let ids := (List.range additional).map fun i =>
          ⟨s.operator.id, first + i⟩
        let t := t.grow s outputs additional
        match t.graph.setParallelism sibling.vertex (first + additional) with
        | .error e => (t, .error e)
        | .ok graph => ({ t with graph }, .ok ids)

end ControlPlane.Topology
