import ControlPlane.Checkpoint.Planning
import ControlPlane.Countdown
import ControlPlane.Failover
import ControlPlane.Metrics
import ControlPlane.Release
import ControlPlane.Topology.Attempts
import ControlPlane.Topology.Extend

/-! # The state of a job

The topology of one job with everything that decides on it: when data is
released, what restarts after a failure, and what a checkpoint involves.
Every operation returns the state after it beside its result, also when it
fails. -/
namespace ControlPlane

/-- A blocking group that nobody will read again. -/
structure ReleasedGroup where
  group : GroupIndex
  dataSet : DataSetId
  partitions : List PartitionId
deriving DecidableEq, Inhabited, Repr

/-- A countdown that was handed out, by number. -/
abbrev CountdownIndex := Nat

/-- The state of one job. -/
structure JobState where
  topology : Topology
  release : ReleaseStrategy
  failover : FailoverStrategy
  /-- Whether a partition can still be read. -/
  isAvailable : PartitionId → Bool
  /-- Whether checkpoints go on once some tasks have finished. -/
  allowFinished : Bool
  metrics : Metrics := {}
  /-- The countdowns of all rescales so far. -/
  countdowns : Array Countdown := #[]
  /-- The tasks added by a rescale that have not reported running yet, each
  with the countdown of its rescale. -/
  pending : Std.TreeMap TaskId CountdownIndex := ∅

namespace JobState

/-- The state of a job before any operation. -/
def start (topology : Topology) (config : Config)
    (isAvailable : PartitionId → Bool) : JobState where
  topology
  release := .start config.release topology
  failover := .start config.failover
  isAvailable
  allowFinished := config.checkpointAfterFinish

/-- The result of an operation, beside the state it leaves behind. -/
abbrev Result (α : Type) := JobState × Except Error α

/-! ## Deploying -/

/-- Starts a new attempt of a task and returns its number. A task that had
finished before counts as unfinished again. -/
def deploy (s : JobState) (id : TaskId) : Result Nat :=
  match s.topology.task id, s.topology.attachAttempt id with
  | .error e, _ => (s, .error e)
  | _, .error e => (s, .error e)
  | .ok task, .ok (topology, number) =>
    let deployed := { s with topology }
    if task.state = .finished then
      match s.release.taskReopened topology id with
      | .error e => (deployed, .error e)
      | .ok release => ({ deployed with release }, .ok number)
    else (deployed, .ok number)

/-! ## State changes -/

/-- The description of a released group. -/
def describe (t : Topology) (index : GroupIndex) : Option ReleasedGroup :=
  t.groups[index]?.map fun group =>
    { group := index
      dataSet := group.dataSet
      partitions := (t.partitionsOf group.partitions).map (·.id) }

/-- Tells the release strategy that a task has gone from one state to
another, and returns what can be released. -/
def reportToRelease (s : JobState) (id : TaskId)
    (previous state : TaskState) : Result (List ReleasedGroup) :=
  if state = .finished ∧ previous ≠ .finished then
    match s.release.taskFinished s.topology id with
    | .error e => (s, .error e)
    | .ok (release, groups) =>
      let released := groups.filterMap (describe s.topology)
      ({ s with
         release
         metrics := s.metrics.countReleased released.length },
        .ok released)
  else if previous = .finished ∧ state ≠ .finished then
    match s.release.taskReopened s.topology id with
    | .error e => (s, .error e)
    | .ok release => ({ s with release }, .ok [])
  else (s, .ok [])

/-- Signals the countdown of a task that runs for the first time since it
was added. -/
def signalRunning (s : JobState) (id : TaskId) : JobState :=
  match s.pending[id]? with
  | none => s
  | some handle =>
    { s with
      pending := s.pending.erase id
      countdowns := s.countdowns.modify handle (·.countDown) }

/-- Applies a state reported for the current attempt of a task, and returns
the groups that can be released because of it. -/
def updateState (s : JobState) (id : TaskId) (state : TaskState) :
    Result (List ReleasedGroup) :=
  match s.topology.transition id state with
  | .error e => (s, .error e)
  | .ok (topology, previous) =>
    match { s with topology }.reportToRelease id previous state with
    | (s, .error e) => (s, .error e)
    | (s, .ok released) =>
      (if state = .running then s.signalRunning id else s, .ok released)

/-! ## Failures -/

/-- The tasks to restart after a task failed, in order of id. -/
def handleFailure (s : JobState) (id : TaskId) (cause : FailureCause) :
    Result (List TaskId) :=
  match s.failover.tasksToRestart s.topology s.isAvailable id cause with
  | (failover, .error e) => ({ s with failover }, .error e)
  | (failover, .ok tasks) =>
    ({ s with
       failover
       metrics := s.metrics.countFailover tasks.length },
      .ok tasks)

/-! ## Checkpoints -/

/-- The plan for a checkpoint; aborted ones are counted by reason. -/
def planCheckpoint (s : JobState) (scope : Checkpoint.Scope) :
    JobState × Except Checkpoint.Failure Checkpoint.Plan :=
  match Checkpoint.plan s.topology s.allowFinished scope with
  | .ok plan => ({ s with metrics := s.metrics.countPlan }, .ok plan)
  | .error e =>
    ({ s with metrics := s.metrics.countAborted e.reason }, .error e)

/-! ## Rescaling -/

/-- Adds subtasks beside a sibling. Returns them with a countdown that is
done once each of them has reported running. -/
def rescale (s : JobState) (sibling : TaskId) (additional : Nat) :
    Result (List TaskId × CountdownIndex) :=
  match s.topology.extendRegion sibling additional with
  | (topology, .error e) => ({ s with topology }, .error e)
  | (topology, .ok added) =>
    match s.release.tasksAdded topology sibling added with
    | (release, .error e) => ({ s with topology, release }, .error e)
    | (release, .ok ()) =>
      let handle := s.countdowns.size
      ({ s with
         topology
         release
         countdowns := s.countdowns.push ⟨added.length⟩
         pending := added.foldl (·.insert · handle) s.pending },
        .ok (added, handle))

end JobState

end ControlPlane
