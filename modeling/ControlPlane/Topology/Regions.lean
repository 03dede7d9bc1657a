import ControlPlane.Region.Partition
import ControlPlane.Topology.Basic

/-! # Pipelined regions of a topology

Regions are found on two levels. Operators are partitioned first. A class
of operators with a fully wired edge inside becomes one region; any other
class is split along the dependencies between its tasks. -/
namespace ControlPlane.Topology

/-- The dependencies between operators. -/
def operatorDependencies (t : Topology) : List Dependency :=
  t.operators.zipIdx.flatMap fun (operator, consumer) =>
    operator.inputs.filterMap fun edge =>
      t.operatorIndex[edge.producer]?.map fun producer =>
        { producer, consumer, pipelined := edge.kind.isPipelined }

/-- Whether a fully wired edge connects two of the given operators. -/
def hasInnerShuffle (t : Topology) (operators : List Nat) : Bool :=
  operators.any fun pos =>
    ((t.operators[pos]?.map (·.inputs)).getD []).any fun edge =>
      edge.pattern = .allToAll &&
        match t.operatorIndex[edge.producer]? with
        | some producer => producer ∈ operators
        | none => false

/-- The position of every task in a list that has it. -/
def placesIn (tasks : List TaskIndex) : Std.TreeMap TaskIndex Nat :=
  tasks.zipIdx.foldl (fun places (task, place) => places.insert task place) ∅

/-- The dependencies between the given tasks, which are numbered by their
position in the list. -/
def taskDependencies (t : Topology) (tasks : List TaskIndex) :
    List Dependency :=
  let places := placesIn tasks
  tasks.zipIdx.flatMap fun (index, consumer) =>
    (t.groupsOf ((t.tasks[index]?.map (·.consumed)).getD [])).flatMap
      fun group =>
        (t.partitionsOf group.partitions).filterMap fun partition =>
          places[partition.producer]?.map fun producer =>
            { producer, consumer, pipelined := group.kind.isPipelined }

/-- The regions that the tasks of a class of operators form. -/
def splitClass (t : Topology) (operators : List Nat) :
    List (List TaskIndex) :=
  let tasks := operators.flatMap fun pos =>
    (t.operators[pos]?.map (·.tasks)).getD []
  if t.hasInnerShuffle operators then [tasks]
  else
    let taskAt := tasks.toArray
    (Region.partition tasks.length (t.taskDependencies tasks)).map fun region =>
      region.filterMap (taskAt[·]?)

/-- The blocking groups read by some of the given tasks, ascending. -/
def blockingGroupsOf (t : Topology) (tasks : List TaskIndex) :
    List GroupIndex :=
  ascending <| (t.tasksOf tasks).flatMap fun task =>
    task.consumed.filter fun g =>
      (t.groups[g]?.map (·.kind.isBlocking)).getD false

/-- The members of every region, ordered by the smallest member. No two
regions share a member, so ascending lists are in this order. -/
def regionMembers (t : Topology) : List (List TaskIndex) :=
  let classes := Region.partition t.operators.length t.operatorDependencies
  ascending ((classes.flatMap t.splitClass).map ascending)

/-- Puts every task into its region. -/
def computeRegions (t : Topology) : Topology :=
  let members := t.regionMembers
  { t with
    regions := (members.zipIdx.map fun (tasks, index) =>
      { index, tasks, blockingGroups := t.blockingGroupsOf tasks }).toArray
    regionOf := members.zipIdx.foldl (fun regionOf (tasks, index) =>
      tasks.foldl (·.setIfInBounds · index) regionOf)
      (Array.replicate t.tasks.size 0) }

/-- Checks that equal subtasks of co-located operators share a region. The
first region seen for a group and a subtask is the one they have to be
in. -/
def checkCoLocation (t : Topology) : Except Error Unit := do
  let places := t.operators.flatMap fun operator =>
    match operator.coLocationGroup with
    | none => []
    | some group => operator.tasks.zipIdx.filterMap fun (task, subtask) =>
      t.regionOf[task]?.map fun region => ((group, subtask), region)
  let _ ← places.foldlM (fun seen (place, region) =>
    match seen[place]? with
    | none => Except.ok (seen.insert place region)
    | some first =>
      if first = region then .ok seen
      else .error (.coLocation (.split place.2 place.1 first region)))
    (∅ : Std.TreeMap (String × Nat) RegionIndex
      (compareLex (compareOn (·.1)) (compareOn (·.2))))

end ControlPlane.Topology
