/-! # Task states

The lifecycle of one execution attempt, with its written names. -/
namespace ControlPlane

/-- Lifecycle state of one execution attempt of a task. -/
inductive TaskState where
  | created
  | scheduled
  | deploying
  | initializing
  | running
  | finished
  | canceling
  | canceled
  | failed
deriving DecidableEq, Inhabited, Repr

namespace TaskState

/-- Terminal states: the attempt has ended, well or badly. -/
def isTerminal : TaskState → Bool
  | finished | canceled | failed => true
  | _ => false

/-- The written name of a state. -/
def name : TaskState → String
  | created => "CREATED"
  | scheduled => "SCHEDULED"
  | deploying => "DEPLOYING"
  | initializing => "INITIALIZING"
  | running => "RUNNING"
  | finished => "FINISHED"
  | canceling => "CANCELING"
  | canceled => "CANCELED"
  | failed => "FAILED"

instance : ToString TaskState := ⟨name⟩

/-- Every state, in the order of the lifecycle. -/
def all : List TaskState :=
  [created, scheduled, deploying, initializing, running, finished, canceling,
    canceled, failed]

/-- The state with a written name. -/
def ofName? (s : String) : Option TaskState := all.find? (·.name = s)

@[simp] theorem ofName?_name (s : TaskState) : ofName? s.name = some s := by
  cases s <;> decide

end TaskState

end ControlPlane
