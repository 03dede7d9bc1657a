import ControlPlane.Error

/-! # Aborted checkpoints

A checkpoint is aborted for one of four reasons, which are counted, and
with a message for people. -/
namespace ControlPlane.Checkpoint

/-- The reasons for which checkpoints are aborted. -/
inductive Reason where
  /-- A task that must take part does not run. -/
  | notAllRunning
  /-- The scope names what the job does not have. -/
  | invalidScope
  /-- The control plane went away before there was a plan. -/
  | shutDown
  /-- The topology contradicts itself. -/
  | inconsistent
deriving DecidableEq, Inhabited, Repr

namespace Reason

/-- The written name of a reason. -/
def name : Reason → String
  | notAllRunning => "NOT_ALL_REQUIRED_TASKS_RUNNING"
  | invalidScope => "INVALID_SCOPE"
  | shutDown => "COORDINATOR_SHUTDOWN"
  | inconsistent => "TOPOLOGY_INCONSISTENT"

/-- The wording of a reason. -/
def message : Reason → String
  | notAllRunning => "Not all required tasks are currently running"
  | invalidScope => "The checkpoint scope is invalid"
  | shutDown => "The checkpoint coordinator is shut down"
  | inconsistent => "The execution topology is inconsistent"

end Reason

/-- Why there is no plan. -/
inductive Failure where
  /-- Some tasks have finished, which the settings do not allow. -/
  | finishedTasks
  /-- A task of a job has no execution attempt. -/
  | notInitiated (task job : String)
  /-- A task of a job has to take part but is not running. -/
  | notRunning (task job : String)
  /-- No vertex belongs to the snapshot group. -/
  | emptyGroup (name : String)
  /-- The scope names a vertex that the job does not have. -/
  | unknownVertex (id : VertexId)
  /-- The control plane went away. -/
  | shutDown (text : String)
  /-- Something the topology relies on is missing. -/
  | inconsistent (error : Error)
deriving DecidableEq, Repr

namespace Failure

/-- The reason that a failure is counted under. -/
def reason : Failure → Reason
  | finishedTasks | notInitiated _ _ | notRunning _ _ => .notAllRunning
  | emptyGroup _ | unknownVertex _ => .invalidScope
  | shutDown _ => .shutDown
  | inconsistent _ => .inconsistent

/-- What a failure adds to its reason. -/
def detail : Failure → String
  | finishedTasks =>
    "some tasks of the job have already finished and checkpointing " ++
      "with finished tasks is not enabled"
  | notInitiated task job =>
    s!"task {task} of job {job} is not being executed at the moment. " ++
      "Aborting checkpoint."
  | notRunning task job =>
    s!"Checkpoint triggering task {task} of job {job} is not being " ++
      "executed at the moment. Aborting checkpoint."
  | emptyGroup name => s!"no vertex belongs to snapshot group '{name}'"
  | unknownVertex id => s!"rescale scope names unknown vertex {id}"
  | shutDown text => text
  | inconsistent error => error.message

/-- The wording of a failure. -/
def message (f : Failure) : String := s!"{f.reason.message}: {f.detail}"

instance : ToString Failure := ⟨message⟩

end Failure

end ControlPlane.Checkpoint
