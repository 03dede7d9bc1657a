import ControlPlane.Topology.Wiring

/-! # Expanding operators

Turns one vertex of the job graph after the other into its subtasks, the
partitions they produce and the groups they consume. Producers come before
their consumers. -/
namespace ControlPlane.Topology

/-- Adds the partition of a dataset that a task produces. -/
def addPartition (t : Topology) (producer : TaskIndex) (edge : JobEdge)
    (number : Nat) : Topology :=
  let id : PartitionId := ⟨edge.source, number⟩
  let index := t.partitions.size
  { t with
    partitions := t.partitions.push { id, kind := edge.kind, producer }
    partitionIndex := t.partitionIndex.insert id index
    tasks := t.tasks.modify producer fun task =>
      { task with produced := task.produced ++ [index] } }

/-- Adds one subtask of a vertex with its partitions, one per output. -/
def addSubtask (vertex : VertexId) (outputs : List JobEdge) (t : Topology)
    (subtask : Nat) : Topology :=
  let id : TaskId := ⟨vertex, subtask⟩
  let index := t.tasks.size
  let t := { t with
    tasks := t.tasks.push { id }
    taskIndex := t.taskIndex.insert id index }
  outputs.foldl (fun t edge => t.addPartition index edge subtask) t

/-- Adds a partition group and its consumer group. -/
def addGroup (edge : JobEdge) (t : Topology) (wire : Wire) : Topology :=
  let group := t.groups.size
  let consumerGroup := t.consumerGroups.size
  { t with
    partitions := wire.partitions.foldl (fun ps index =>
      ps.modify index fun p =>
        { p with consumerGroups := p.consumerGroups ++ [consumerGroup] })
      t.partitions
    tasks := wire.consumers.foldl (fun ts index =>
      ts.modify index fun task =>
        { task with consumed := task.consumed ++ [group] })
      t.tasks
    groups := t.groups.push
      { dataSet := edge.source
        kind := edge.kind
        pattern := edge.pattern
        partitions := wire.partitions
        consumerGroup }
    consumerGroups := t.consumerGroups.push
      { tasks := wire.consumers, partitionGroup := group } }

/-- Adds the groups of all wires of an edge, and registers them with the
dataset that the edge carries. -/
def addGroups (t : Topology) (edge : JobEdge) (wires : List Wire) :
    Topology :=
  let groups := List.range' t.groups.size wires.length
  { wires.foldl (addGroup edge) t with
    dataSetGroups := t.dataSetGroups.insert edge.source
      (t.dataSetGroups.getD edge.source [] ++ groups) }

/-- The first partition of a dataset that a task produces. -/
def partitionOf? (t : Topology) (dataSet : DataSetId) (index : TaskIndex) :
    Option PartitionIndex := do
  let task ← t.tasks[index]?
  task.produced.find? fun p =>
    (t.partitions[p]?.map (·.id.dataSet)) = some dataSet

/-- Wires one input edge into the tasks of its target. -/
def connectInput (consumers : List TaskIndex) (t : Topology)
    (edge : JobEdge) : Except Error Topology := do
  let producer ← t.operator edge.producer
  let partitions := producer.tasks.filterMap (t.partitionOf? edge.source)
  if partitions.length ≠ producer.tasks.length then
    throw (.invalidGraph (.missingPartitions edge.source producer.name))
  return t.addGroups edge (Wire.ofPattern edge.pattern partitions consumers)

/-- Expands one vertex of the job graph. -/
def addOperator (t : Topology) (id : VertexId) : Except Error Topology := do
  let vertex ← t.graph.vertex id
  let outputs := t.graph.outputsOf id
  let subtasks := List.range vertex.parallelism
  let tasks := subtasks.map (t.tasks.size + ·)
  let t := subtasks.foldl (addSubtask vertex.id outputs) t
  let t ← vertex.inputs.foldlM (connectInput tasks) t
  return { t with
    operators := t.operators ++
      [{ id := vertex.id
         name := vertex.name
         parallelism := vertex.parallelism
         tasks
         inputs := vertex.inputs
         coLocationGroup := vertex.coLocationGroup
         snapshotGroup := vertex.snapshotGroup }]
    operatorIndex := t.operatorIndex.insert vertex.id t.operators.length }

end ControlPlane.Topology
