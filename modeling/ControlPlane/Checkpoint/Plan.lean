import ControlPlane.Ident

/-! # Checkpoint plans -/
namespace ControlPlane.Checkpoint

/-- A task with the number of the attempt that a plan is made for. -/
structure TaskAttempt where
  task : TaskId
  number : Nat
deriving DecidableEq, Inhabited, Repr

/-- The tasks that one checkpoint involves. -/
structure Plan where
  /-- The tasks that receive the barrier directly. -/
  trigger : List TaskAttempt := []
  /-- The tasks whose acknowledgement completes the checkpoint. -/
  waitFor : List TaskAttempt := []
  /-- The tasks that are told once the checkpoint is complete. -/
  commitTo : List TaskId := []
  /-- The tasks left out because they have finished. -/
  finished : List TaskAttempt := []
  /-- The vertices of which no task is waited for. -/
  fullyFinished : List VertexId := []
  /-- Whether finished tasks are allowed. -/
  mayHaveFinished : Bool
deriving DecidableEq, Inhabited, Repr

namespace Plan

/-- Both plans in one, the tasks of the first in front. -/
def append (p q : Plan) : Plan where
  trigger := p.trigger ++ q.trigger
  waitFor := p.waitFor ++ q.waitFor
  commitTo := p.commitTo ++ q.commitTo
  finished := p.finished ++ q.finished
  fullyFinished := p.fullyFinished ++ q.fullyFinished
  mayHaveFinished := p.mayHaveFinished

/-- Whether a task receives the barrier directly. -/
def isTriggered (p : Plan) (id : TaskId) : Bool :=
  p.trigger.any (·.task = id)

/-- Whether the acknowledgement of a task is waited for. -/
def isWaitedFor (p : Plan) (id : TaskId) : Bool :=
  p.waitFor.any (·.task = id)

/-- Whether a task is left out because it has finished. -/
def isFinished (p : Plan) (id : TaskId) : Bool :=
  p.finished.any (·.task = id)

end Plan

end ControlPlane.Checkpoint
