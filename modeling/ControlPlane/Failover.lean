import ControlPlane.Ascending
import ControlPlane.Config
import ControlPlane.Explore
import ControlPlane.Topology.Basic

/-! # Failover

Which tasks restart after one of them has failed. A region that restarts
drags in the producers of inputs it can no longer read, and the readers of
everything it writes anew. Tasks that were never scheduled stay out. -/
namespace ControlPlane

/-- Why a task failed. -/
inductive FailureCause where
  /-- The task itself failed. -/
  | task (message : String)
  /-- A partition could not be read. -/
  | partition (id : PartitionId) (message : String)
deriving DecidableEq, Repr

namespace FailureCause

/-- The partition that could not be read. -/
def partition? : FailureCause → Option PartitionId
  | task _ => none
  | partition id _ => some id

/-- The wording of a cause. -/
def message : FailureCause → String
  | task text => s!"task failure: {text}"
  | partition id text => s!"failed to consume {id}: {text}"

instance : ToString FailureCause := ⟨message⟩

end FailureCause

/-! ## What a restarting region drags in -/

/-- What the search for the regions to restart passes through. -/
inductive Affected where
  /-- A region, which restarts. -/
  | region (index : RegionIndex)
  /-- A group that a restarting region reads. -/
  | input (group : GroupIndex)
  /-- The readers of a partition that a restarting region produces. -/
  | output (consumers : ConsumerGroupIndex)
deriving DecidableEq, Inhabited, Repr

namespace Affected

/-- The rank of a kind: regions come first, then inputs, then outputs. -/
def rank : Affected → Nat
  | region _ => 0
  | input _ => 1
  | output _ => 2

/-- The position among its kind. -/
def position : Affected → Nat
  | region index => index
  | input group => group
  | output consumers => consumers

instance : Ord Affected :=
  ⟨compareLex (compareOn rank) (compareOn position)⟩

instance : Std.TransOrd Affected :=
  inferInstanceAs (Std.TransCmp
    (compareLex (compareOn rank) (compareOn position)))

instance : Std.LawfulEqOrd Affected where
  eq_of_compare {a b} h := by
    obtain ⟨hr, hp⟩ := compareLex_eq_eq.mp h
    have hr : a.rank = b.rank := Std.LawfulEqCmp.eq_of_compare hr
    have hp : a.position = b.position := Std.LawfulEqCmp.eq_of_compare hp
    cases a <;> cases b <;> simp_all [rank, position]

/-- The region, if this is one. -/
def region? : Affected → Option RegionIndex
  | region index => some index
  | _ => none

end Affected

namespace Topology

/-- The regions of the given tasks. -/
def regionsOf (t : Topology) (tasks : List TaskIndex) : List RegionIndex :=
  tasks.filterMap (t.regionOf[·]?)

/-- The groups that a region reads, and the readers of what it produces. -/
def exchangesOf (t : Topology) (region : RegionIndex) : List Affected :=
  let tasks := t.regionTasks region
  let partitions := t.partitionsOf (tasks.flatMap (·.produced))
  (tasks.flatMap (·.consumed)).map .input ++
    (partitions.flatMap (·.consumerGroups)).map .output

/-- The regions that produce an unavailable partition of a group. -/
def lostProducers (t : Topology) (isAvailable : PartitionId → Bool)
    (group : GroupIndex) : List RegionIndex :=
  let partitions := t.partitionsOf ((t.groups[group]?.map
    (·.partitions)).getD [])
  t.regionsOf ((partitions.filter (!isAvailable ·.id)).map (·.producer))

/-- The regions of the tasks in a consumer group. -/
def readers (t : Topology) (consumers : ConsumerGroupIndex) :
    List RegionIndex :=
  t.regionsOf ((t.consumerGroups[consumers]?.map (·.tasks)).getD [])

/-- What is affected directly by something that is. -/
def dragged (t : Topology) (isAvailable : PartitionId → Bool) :
    Affected → List Affected
  | .region index => t.exchangesOf index
  | .input group => (t.lostProducers isAvailable group).map .region
  | .output consumers => (t.readers consumers).map .region

/-- All regions that restart when one fails. Nothing is looked at more than
once, which bounds the search. -/
def regionsToRestart (t : Topology) (isAvailable : PartitionId → Bool)
    (failed : RegionIndex) : List RegionIndex :=
  let bound := t.regions.size + t.groups.size + t.consumerGroups.size
  (explore (t.dragged isAvailable) bound [.region failed]
    {.region failed}).toList.filterMap Affected.region?

/-- The position of the region of a task. -/
def regionAt (t : Topology) (id : TaskId) : Except Error RegionIndex := do
  let index ← t.taskAt id
  match t.regionOf[index]? with
  | some region => return region
  | none => throw (.unknownTask id)

/-- The scheduled tasks of the given regions, in order of id. -/
def scheduledIn (t : Topology) (regions : List RegionIndex) : List TaskId :=
  ascending <| ((regions.flatMap t.regionTasks).filter
    (·.state ≠ .created)).map (·.id)

end Topology

/-! ## Strategies -/

/-- A failover strategy with what it remembers. -/
inductive FailoverStrategy where
  /-- Restarts the failed region and those it drags in. Remembers the
  partitions reported lost by the failure being handled. -/
  | region (lost : List PartitionId)
  /-- Restarts every scheduled task. -/
  | full
deriving DecidableEq, Repr

namespace FailoverStrategy

/-- The strategy of a kind, before any failure. -/
def start : FailoverKind → FailoverStrategy
  | .region => .region []
  | .full => .full

/-- Whether a partition can be read although some are reported lost. -/
def isReadable (lost : List PartitionId) (isAvailable : PartitionId → Bool)
    (partition : PartitionId) : Bool :=
  partition ∉ lost && isAvailable partition

/-- The tasks to restart after the failure of one region, beside what is
remembered as lost afterwards. A partition named by the cause counts as
lost while the failure is handled. -/
def restartRegions (lost : List PartitionId) (t : Topology)
    (isAvailable : PartitionId → Bool) (failed : TaskId)
    (cause : FailureCause) :
    List PartitionId × Except Error (List TaskId) :=
  match t.regionAt failed with
  | .error e => (lost, .error e)
  | .ok origin =>
    match cause.partition? with
    | none =>
      (lost, .ok (t.scheduledIn
        (t.regionsToRestart (isReadable lost isAvailable) origin)))
    | some partition =>
      match t.partitionAt partition with
      | .error e => (lost, .error e)
      | .ok _ =>
        let reported := partition :: lost
        (reported.filter (· ≠ partition), .ok (t.scheduledIn
          (t.regionsToRestart (isReadable reported isAvailable) origin)))

/-- The tasks to restart after any failure. -/
def restartAll (t : Topology) (failed : TaskId) :
    Except Error (List TaskId) := do
  let _ ← t.taskAt failed
  return t.scheduledIn (List.range t.regions.size)

/-- The tasks to restart after a task failed, in order of id, beside the
strategy after the call. -/
def tasksToRestart (s : FailoverStrategy) (t : Topology)
    (isAvailable : PartitionId → Bool) (failed : TaskId)
    (cause : FailureCause) : FailoverStrategy × Except Error (List TaskId) :=
  match s with
  | .region lost =>
    let (lost, result) := restartRegions lost t isAvailable failed cause
    (.region lost, result)
  | .full => (.full, restartAll t failed)

end FailoverStrategy

end ControlPlane
