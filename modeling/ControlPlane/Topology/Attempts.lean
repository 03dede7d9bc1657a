import ControlPlane.Topology.Basic

/-! # Execution attempts -/
namespace ControlPlane.Topology

/-- Attaches a fresh attempt in the created state, and returns its number.
The attempts that were started are counted in a word of 32 bits, which goes
back to zero once it is full. -/
def attachAttempt (t : Topology) (id : TaskId) :
    Except Error (Topology × Nat) := do
  let index ← t.taskAt id
  let task ← t.task id
  let number := task.attemptsStarted
  let tasks := t.tasks.modify index fun task =>
    { task with
      attempt := some { number, state := .created }
      attemptsStarted := (number + 1) % UInt32.size }
  return ({ t with tasks }, number)

/-- Moves the current attempt to a state, and returns the state it was in
before. -/
def transition (t : Topology) (id : TaskId) (state : TaskState) :
    Except Error (Topology × TaskState) := do
  let index ← t.taskAt id
  let task ← t.task id
  match task.attempt with
  | none => throw (.noAttempt id)
  | some attempt =>
    let tasks := t.tasks.modify index fun task =>
      { task with attempt := some { attempt with state } }
    return ({ t with tasks }, attempt.state)

end ControlPlane.Topology
