import ControlPlane.Checkpoint.Failure
import ControlPlane.Checkpoint.Plan
import ControlPlane.Checkpoint.RunningStatus
import ControlPlane.Checkpoint.Scope
import ControlPlane.JobGraph.Reach
import ControlPlane.Topology.Basic

/-! # Planning a checkpoint

A plan says which tasks receive the barrier, which have to acknowledge it,
and which are left out because they have finished. While every task runs,
the barrier enters at the edge of the scope. Once some have finished, it
enters at every running task that no running predecessor can pass it on
to. There is no plan when a task that has to take part does not run. -/
namespace ControlPlane.Checkpoint

/-! ## Targets of a scope -/

/-- An operator with its part in a checkpoint. -/
structure Target where
  operator : Operator
  /-- Whether its tasks acknowledge the barrier. -/
  waited : Bool
  /-- Whether its tasks receive the barrier when everything runs. -/
  triggered : Bool
deriving DecidableEq, Inhabited, Repr

/-- The part of an operator in a checkpoint of a snapshot group, given the
members of the group and what is reachable from them. -/
def groupTarget (t : Topology) (group : String) (members : List VertexId)
    (reached : Std.TreeSet VertexId) (operator : Operator) : Target :=
  let isMember := operator.snapshotGroup = some group
  let waited := isMember ||
    (operator.id ∉ members && operator.id ∈ reached)
  let triggered := (isMember && operator.isInput) ||
    (!waited && t.graph.feedsGroup operator.id group)
  { operator, waited, triggered }

/-- The part of an operator in a checkpoint before a rescale, given what is
reachable from the vertex. -/
def rescaleTarget (vertex : VertexId) (blocked : List VertexId)
    (reached : Std.TreeSet VertexId) (operator : Operator) : Target :=
  let triggered : Bool := operator.id ∈ blocked
  let waited := operator.id = vertex ||
    (!triggered && operator.id ∈ reached)
  { operator, waited, triggered }

/-- The operators of a topology with their part in a scope. -/
def targets (t : Topology) : Scope → Except Failure (List Target)
  | .job => .ok (t.operators.map fun operator =>
      { operator, waited := true, triggered := operator.isInput })
  | .group name =>
    if t.operators.any (·.snapshotGroup = some name) then
      let members := t.graph.snapshotMembers name
      let reached := t.graph.reachableFrom members
      .ok (t.operators.map (groupTarget t name members reached))
    else .error (.emptyGroup name)
  | .rescale vertex blocked =>
    match (vertex :: blocked).find? (!t.operatorIndex.contains ·) with
    | some id => .error (.unknownVertex id)
    | none =>
      let reached := t.graph.reachableFrom [vertex]
      .ok (t.operators.map (rescaleTarget vertex blocked reached))

/-! ## Tasks and attempts -/

/-- A task by the name of its operator, its number counted from one and the
parallelism of the operator. -/
def taskLabel (t : Topology) (id : TaskId) : String :=
  match t.operator id.vertex with
  | .ok o => s!"{o.name} ({id.subtask + 1}/{o.parallelism})"
  | .error _ => toString id

/-- The current attempt of a task. -/
def attemptOf (t : Topology) (task : Task) : Except Failure TaskAttempt :=
  match task.attempt with
  | some attempt => .ok ⟨task.id, attempt.number⟩
  | none => .error (.notInitiated (taskLabel t task.id) t.graph.name)

/-- Whether some task of the operators is in the finished state. Failed and
canceled tasks do not count: they are no reason to go on without them. -/
def hasFinishedTask (t : Topology) (operators : List Operator) : Bool :=
  operators.any fun o => (t.tasksOf o.tasks).any (·.state = .finished)

/-- Checks that every task has an attempt. -/
def checkInitiated (t : Topology) : Except Failure Unit :=
  t.operators.forM fun o =>
    (t.tasksOf o.tasks).forM fun task => discard (attemptOf t task)

/-- Checks that every task waited for is running. -/
def checkRunning (t : Topology) (waitFor : List TaskAttempt) :
    Except Failure Unit :=
  waitFor.forM fun attempt =>
    match t.task attempt.task with
    | .error e => .error (.inconsistent e)
    | .ok task =>
      if task.state = .running then .ok ()
      else
        .error (.notRunning (taskLabel t attempt.task) t.graph.name)

/-! ## While every task runs -/

/-- What one operator adds to the plan. -/
def runningShare (t : Topology) (allowFinished : Bool) (target : Target) :
    Except Failure Plan := do
  let attempts ← (t.tasksOf target.operator.tasks).mapM (attemptOf t)
  let waitFor := if target.waited then attempts else []
  return {
    trigger := if target.triggered then attempts else []
    waitFor
    commitTo := waitFor.map (·.task)
    mayHaveFinished := allowFinished }

/-- The plan that triggers the entries of the scope, and waits for every
task in it. -/
def planWhileRunning (t : Topology) (allowFinished : Bool)
    (targets : List Target) : Except Failure Plan :=
  targets.foldlM (fun plan target => do
    return plan.append (← runningShare t allowFinished target))
    { mayHaveFinished := allowFinished }

/-! ## After some tasks have finished -/

/-- The subtasks of an operator whose attempt has not ended. -/
def runningStatus (t : Topology) (operator : Operator) : RunningStatus :=
  let tasks := t.tasksOf operator.tasks
  tasks.zipIdx.foldl (fun status (task, subtask) =>
    if task.attempt.any (!·.isFinished) then status.insert subtask
    else status)
    (RunningStatus.empty operator.tasks.length)

/-- The status at a position in topological order. -/
def statusAt (statuses : Array RunningStatus) (pos : Nat) : RunningStatus :=
  statuses[pos]?.getD (.empty 0)

/-- The status of the operator with an id. -/
def statusOf (t : Topology) (statuses : Array RunningStatus)
    (id : VertexId) : Except Failure RunningStatus :=
  match t.operatorAt id with
  | .ok pos => .ok (statusAt statuses pos)
  | .error e => .error (.inconsistent e)

/-- Whether tasks of an operator may have to be triggered. They need not be
when one of its inputs is still fed: by any running task through full
wiring, or by running tasks only through pointwise wiring. -/
def mustTrigger (t : Topology) (statuses : Array RunningStatus)
    (inputs : List JobEdge) : Except Failure Bool := do
  let isFed ← inputs.anyM fun edge => do
    let status ← statusOf t statuses edge.producer
    return match edge.pattern with
      | .allToAll => 0 < status.cardinality
      | .pointwise => status.allRunning
  return !isFed

/-- Whether a task reads from a running task through pointwise wiring. Its
consumed groups are in the order of the input edges. -/
def hasRunningPredecessor (t : Topology) (statuses : Array RunningStatus)
    (inputs : List JobEdge) (task : Task) : Except Failure Bool :=
  (inputs.zip (t.groupsOf task.consumed)).anyM fun (edge, group) => do
    if edge.pattern ≠ .pointwise then
      return false
    let producers :=
      t.tasksOf ((t.partitionsOf group.partitions).map (·.producer))
    producers.anyM fun producer => do
      let status ← statusOf t statuses producer.id.vertex
      return status.contains producer.id.subtask

/-- A task with its part in a plan. -/
structure Role where
  attempt : TaskAttempt
  runs : Bool
  triggered : Bool
deriving DecidableEq, Inhabited, Repr

/-- The part of a task; only a running one can be triggered. -/
def roleOf (t : Topology) (statuses : Array RunningStatus)
    (operator : Operator) (mayTrigger runs : Bool) (task : Task) :
    Except Failure Role := do
  let attempt ← attemptOf t task
  let triggered ← if runs && mayTrigger then
      (!·) <$> hasRunningPredecessor t statuses operator.inputs task
    else pure false
  return { attempt, runs, triggered }

/-- What one operator adds to the plan. An operator of which no task runs
is fully finished. -/
def finishedShare (t : Topology) (allowFinished : Bool)
    (statuses : Array RunningStatus) (operator : Operator)
    (status : RunningStatus) : Except Failure Plan := do
  let mayTrigger ← if status.noneRunning then pure false
    else mustTrigger t statuses operator.inputs
  let roles ← (t.tasksOf operator.tasks).zipIdx.mapM fun (task, subtask) =>
    roleOf t statuses operator mayTrigger (status.contains subtask) task
  let waitFor := (roles.filter (·.runs)).map (·.attempt)
  return {
    trigger := (roles.filter (·.triggered)).map (·.attempt)
    waitFor
    commitTo := waitFor.map (·.task)
    finished := (roles.filter (!·.runs)).map (·.attempt)
    fullyFinished := if status.noneRunning then [operator.id] else []
    mayHaveFinished := allowFinished }

/-- The plan over the operators marked, in topological order. All others
count as not running. -/
def planAfterFinish (t : Topology) (allowFinished : Bool)
    (marked : List Bool) : Except Failure Plan :=
  let members := t.operators.zip marked
  let statuses := members.map fun (operator, isMember) =>
    let status := runningStatus t operator
    if isMember then status else status.clear
  let planned := (members.zip statuses).filter (·.1.2)
  planned.foldlM (fun plan ((operator, _), status) => do
    return plan.append
      (← finishedShare t allowFinished statuses.toArray operator status))
    { mayHaveFinished := allowFinished }

/-! ## Planning -/

/-- The plan for a checkpoint. Finished tasks are left out if the settings
allow it, and abort the checkpoint otherwise. -/
def plan (t : Topology) (allowFinished : Bool) (scope : Scope) :
    Except Failure Plan := do
  let targets ← targets t scope
  let considered := match scope with
    | .group name => t.operators.filter (·.snapshotGroup = some name)
    | _ => t.operators
  let hasFinished := hasFinishedTask t considered
  if hasFinished && !allowFinished then
    throw .finishedTasks
  checkInitiated t
  let plan ←
    if hasFinished then
      planAfterFinish t allowFinished <| match scope with
        | .group _ => targets.map (·.waited)
        | _ => t.operators.map fun _ => true
    else planWhileRunning t allowFinished targets
  checkRunning t plan.waitFor
  return plan

end ControlPlane.Checkpoint
