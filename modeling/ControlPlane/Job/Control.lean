import ControlPlane.Executor
import ControlPlane.Job.State

/-! # Controlling a job

The operations on a job as requests to its executor. -/
namespace ControlPlane

/-- Why a request to a job has no result. -/
inductive ControlError where
  /-- The request did not come back. -/
  | executor (error : ExecutorError)
  /-- The operation failed. -/
  | operation (error : Error)
deriving DecidableEq, Repr

/-- The wording of a control error. -/
def ControlError.message : ControlError → String
  | executor error => error.message
  | operation error => error.message

namespace JobState

/-- Submits an operation to the executor of a job. -/
def control {α : Type} (operation : JobState → Result α) (s : JobState) :
    JobState × Except ControlError α :=
  let request : Request JobState (Except Error α) := fun s =>
    let (s, result) := operation s
    (s, .reply result)
  match request.submit s with
  | (s, .error e) => (s, .error (.executor e))
  | (s, .ok (.error e)) => (s, .error (.operation e))
  | (s, .ok (.ok value)) => (s, .ok value)

/-- Submits the planning of a checkpoint to the executor of a job. -/
def controlCheckpoint (scope : Checkpoint.Scope) (s : JobState) :
    JobState × Except Checkpoint.Failure Checkpoint.Plan :=
  let request : Request JobState _ := fun s =>
    let (s, result) := s.planCheckpoint scope
    (s, .reply result)
  match request.submit s with
  | (s, .error e) => (s, .error (.shutDown e.message))
  | (s, .ok result) => (s, result)

end JobState

end ControlPlane
