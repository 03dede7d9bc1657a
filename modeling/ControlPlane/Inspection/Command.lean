import ControlPlane.Inspection.Job
import ControlPlane.Inspection.Report

/-! # Inspection commands -/
namespace ControlPlane.Inspection

/-- What the program can be asked about a job file. -/
inductive Command where
  /-- The pipelined regions. -/
  | regions (path : String)
  /-- The checkpoint plan for the initial states. -/
  | plan (path : String) (group : Option String)
  /-- The tasks to restart after a task fails, maybe because it could not
  read a partition. -/
  | failover (path task : String) (lostPartition : Option String)
deriving DecidableEq, Repr

namespace Command

/-- The path of the job file. -/
def path : Command → String
  | regions path | plan path _ | failover path _ _ => path

end Command

/-- Where causes on the command line come from. -/
def reported : String := "reported on the command line"

namespace Job

/-- Lists the pipelined regions of a job. -/
def regionsReport (job : Job) : RegionsReport where
  job := job.name
  tasks := job.topology.tasks.size
  regions := job.topology.regions.toList.map fun region =>
    { index := region.index
      tasks := (job.topology.regionTasks region.index).map
        fun task => job.taskKey task.id
      blockingInputs := region.blockingGroups.length }

/-- Plans a checkpoint of a job or of one of its snapshot groups. -/
def planReport (job : Job) (config : Config) (group : Option String) :
    Result PlanReport := do
  let scope : Checkpoint.Scope := match group with
    | some name => .group name
    | none => .job
  let state := JobState.start job.topology config fun _ => true
  let plan ← (state.controlCheckpoint scope).2.mapError fun e =>
    { message := s!"checkpoint plan for {scope} aborted"
      causes := [e.message] }
  let keys (attempts : List Checkpoint.TaskAttempt) : List String :=
    attempts.map fun attempt => job.taskKey attempt.task
  return {
    job := job.name
    scope := scope.message
    trigger := keys plan.trigger
    waitFor := keys plan.waitFor
    commitTo := plan.commitTo.map job.taskKey
    finished := keys plan.finished
    fullyFinished := plan.fullyFinished.map job.vertexName }

/-- Why a task failed: maybe because it could not read a partition. -/
def cause (job : Job) : Option String → Result FailureCause
  | some key => (job.partitionId key).map (.partition · reported)
  | none => .ok (.task reported)

/-- Finds the tasks to restart after a task of a job fails. -/
def failoverReport (job : Job) (config : Config) (task : String)
    (lostPartition : Option String) : Result FailoverReport := do
  let failed ← within s!"invalid task '{task}'" (job.loaded.taskId task)
  let cause ← job.cause lostPartition
  let state := JobState.start job.topology config fun _ => true
  let restart ←
    (state.control (·.handleFailure failed cause)).2.mapError fun e =>
      { message := "failover computation failed", causes := e.chain }
  return {
    job := job.name
    failed := job.taskKey failed
    cause := cause.message
    restart := (restart.map job.taskKey).mergeSort (· ≤ ·) }

/-- Reports on a job what a command asks for. -/
def report (job : Job) (config : Config) : Command → Result Report
  | .regions _ => .ok (.regions job.regionsReport)
  | .plan _ group => (job.planReport config group).map .plan
  | .failover _ task lost =>
    (job.failoverReport config task lost).map .failover

end Job

/-- Runs a command. -/
def Command.run (s : Surroundings) (config : Config) (command : Command) :
    Result Report := do
  let job ← Job.ofFile s command.path
  job.report config command

end ControlPlane.Inspection
