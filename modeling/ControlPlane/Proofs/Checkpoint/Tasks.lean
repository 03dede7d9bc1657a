import Mathlib
import ControlPlane.Checkpoint.Planning
import ControlPlane.Proofs.Loops
import ControlPlane.Proofs.Sequence
import ControlPlane.Proofs.Topology.Reachable

/-!
# Tasks as a plan sees them

A plan asks of a task whether it has an attempt, in which state that is and
whether it has ended. Tasks are followed by position here, and found by id
only in what is said to the outside.
-/

namespace ControlPlane

namespace Topology

/-- The state of the task at a position. -/
def stateAt (t : Topology) (i : TaskIndex) : TaskState :=
  ((t.attemptAt i).map (·.state)).getD .created

/-- The current attempt of a task has not ended. -/
def IsActive (t : Topology) (i : TaskIndex) : Prop :=
  ∃ a, t.attemptAt i = some a ∧ a.isFinished = false

/-- The task with an id is in a state. -/
def InState (t : Topology) (id : TaskId) (state : TaskState) : Prop :=
  ∃ task, t.task id = .ok task ∧ task.state = state

section Read

variable {t : Topology} {i : Nat} {id : TaskId} {task : Task}

theorem stateAt_eq (h : t.tasks[i]? = some task) :
    t.stateAt i = task.state := by
  simp [stateAt, attemptAt, h, Task.state]

theorem isActive_iff (h : t.tasks[i]? = some task) :
    t.IsActive i ↔ task.attempt.any (!·.isFinished) = true := by
  simp [IsActive, attemptAt, h, Option.any_eq_true]

theorem lt_of_isActive (h : t.IsActive i) : i < t.tasks.size := by
  obtain ⟨a, ha, -⟩ := h
  by_contra hge
  simp [attemptAt, Array.getElem?_eq_none (Nat.le_of_not_lt hge)] at ha

theorem Indexed.inState_iff (h : t.Indexed) (hi : t.taskIdAt i = some id)
    {state : TaskState} : t.InState id state ↔ t.stateAt i = state := by
  have hlt := lt_of_taskIdAt hi
  have hget : t.tasks[i]? = some t.tasks[i] := by simp [hlt]
  rw [stateAt_eq hget]
  constructor
  · rintro ⟨task, htask, hstate⟩
    rw [h.task_eq_ok hi, hget, Option.some.injEq] at htask
    exact htask ▸ hstate
  · exact fun hstate => ⟨_, (h.task_eq_ok hi).mpr hget, hstate⟩

theorem Indexed.exists_of_inState (h : t.Indexed) {state : TaskState}
    (hs : t.InState id state) :
    ∃ i : Nat, t.taskIdAt i = some id ∧ t.stateAt i = state := by
  have hs' := hs
  obtain ⟨task, htask, -⟩ := hs'
  unfold Topology.task at htask
  split at htask
  · rename_i task' hget
    obtain ⟨i, hindex, -⟩ := Option.bind_eq_some_iff.mp hget
    have hi := (h.tasks id i).mp hindex
    exact ⟨i, hi, (h.inState_iff hi).mp hs⟩
  · cases htask

/-- An attempt that is not active has ended. -/
theorem isTerminal_of_not_isActive {a : Attempt}
    (ha : t.attemptAt i = some a) (hnot : ¬ t.IsActive i) :
    (t.stateAt i).isTerminal = true := by
  simpa [IsActive, stateAt, ha, Attempt.isFinished] using hnot

theorem isActive_of_state {state : TaskState} (h : t.stateAt i = state)
    (hne : state ≠ .created) (hstate : state.isTerminal = false) :
    t.IsActive i := by
  unfold stateAt at h
  cases ha : t.attemptAt i with
  | none =>
    rw [ha] at h
    exact absurd h.symm hne
  | some a =>
    rw [ha] at h
    refine ⟨a, ha, ?_⟩
    rw [Attempt.isFinished, show a.state = state from h, hstate]

theorem not_isActive_of_isTerminal
    (h : (t.stateAt i).isTerminal = true) : ¬ t.IsActive i := by
  rintro ⟨a, ha, hactive⟩
  rw [stateAt, ha, Option.map_some, Option.getD_some] at h
  rw [Attempt.isFinished, h] at hactive
  cases hactive

theorem mem_tasksOf {is : List Nat} :
    task ∈ t.tasksOf is ↔ ∃ i ∈ is, t.tasks[i]? = some task :=
  List.mem_filterMap

/-- Tasks are taken from existing positions one by one. -/
theorem getElem?_tasksOf {is : List Nat} (his : ∀ i ∈ is, i < t.tasks.size)
    (k : Nat) : (t.tasksOf is)[k]? = is[k]?.bind (t.tasks[·]?) :=
  getElem?_filterMap (fun i hi => ⟨_, Array.getElem?_eq_getElem (his i hi)⟩) k

theorem mem_zipIdx_tasksOf {is : List Nat} (his : ∀ i ∈ is, i < t.tasks.size)
    {k : Nat} : (task, k) ∈ (t.tasksOf is).zipIdx ↔
      ∃ i, is[k]? = some i ∧ t.tasks[i]? = some task := by
  rw [List.mk_mem_zipIdx_iff_getElem?, getElem?_tasksOf his,
    Option.bind_eq_some_iff]

theorem Staffed.lt_of_mem_tasks (h : t.Staffed) {o : Operator}
    (ho : o ∈ t.operators) : ∀ i ∈ o.tasks, i < t.tasks.size := by
  intro i hi
  obtain ⟨id, hid, -⟩ := (h.mem_tasks ho).mp hi
  exact lt_of_taskIdAt hid

end Read

end Topology

namespace Checkpoint

open ControlPlane.Topology

/-- The current attempt of the task at a position. -/
def currentAt (t : Topology) (i : TaskIndex) : Option TaskAttempt := do
  let id ← t.taskIdAt i
  let attempt ← t.attemptAt i
  return ⟨id, attempt.number⟩

/-- An attempt in a plan is the current one of its task. -/
def IsCurrent (t : Topology) (a : TaskAttempt) : Prop :=
  ∃ task attempt, t.task a.task = .ok task ∧ task.attempt = some attempt ∧
    attempt.number = a.number

section Attempts

variable {t : Topology} {i : Nat} {task : Task} {a : TaskAttempt}

theorem currentAt_eq_some :
    currentAt t i = some a ↔ t.taskIdAt i = some a.task ∧
      ∃ attempt, t.attemptAt i = some attempt ∧ attempt.number = a.number := by
  simp only [currentAt, Option.bind_eq_bind, Option.bind_eq_some_iff,
    Option.pure_def, Option.some.injEq]
  constructor
  · rintro ⟨id, hid, attempt, hattempt, rfl⟩
    exact ⟨hid, attempt, hattempt, rfl⟩
  · rintro ⟨hid, attempt, hattempt, hnumber⟩
    exact ⟨_, hid, attempt, hattempt, by rw [hnumber]⟩

theorem attemptOf_eq_ok (h : t.tasks[i]? = some task) :
    attemptOf t task = .ok a ↔ currentAt t i = some a := by
  simp only [attemptOf, currentAt, Topology.taskIdAt, Topology.attemptAt, h]
  cases ha : task.attempt <;> simp [ha]

theorem isCurrent_of_currentAt (h : t.Indexed)
    (ha : currentAt t i = some a) : IsCurrent t a := by
  obtain ⟨hid, attempt, hattempt, hnumber⟩ := currentAt_eq_some.mp ha
  have hlt := lt_of_taskIdAt hid
  have hget : t.tasks[i]? = some t.tasks[i] := by simp [hlt]
  refine ⟨_, attempt, (h.task_eq_ok hid).mpr hget, ?_, hnumber⟩
  simpa [Topology.attemptAt, hget] using hattempt

/-- An active task has a current attempt. -/
theorem exists_currentAt_of_isActive {i : Nat} (hi : t.IsActive i) :
    ∃ a, currentAt t i = some a := by
  obtain ⟨id, hid⟩ := exists_taskIdAt (lt_of_isActive hi)
  obtain ⟨attempt, hattempt, -⟩ := hi
  exact ⟨⟨id, attempt.number⟩,
    currentAt_eq_some.mpr ⟨hid, attempt, hattempt, rfl⟩⟩

theorem hasFinishedTask_iff {operators : List Operator} :
    hasFinishedTask t operators = true ↔
      ∃ o ∈ operators, ∃ i ∈ o.tasks, t.stateAt i = .finished := by
  simp only [hasFinishedTask, List.any_eq_true, decide_eq_true_eq,
    mem_tasksOf]
  refine exists_congr fun o => and_congr_right fun _ => ⟨?_, ?_⟩
  · rintro ⟨task, ⟨i, hi, hget⟩, hstate⟩
    exact ⟨i, hi, (stateAt_eq hget).trans hstate⟩
  · rintro ⟨i, hi, hstate⟩
    have hlt : i < t.tasks.size := by
      by_contra hge
      have hnone : t.tasks[i]? = none :=
        Array.getElem?_eq_none (Nat.le_of_not_lt hge)
      simp [stateAt, attemptAt, hnone] at hstate
    have hget : t.tasks[i]? = some t.tasks[i] := by simp [hlt]
    exact ⟨_, ⟨i, hi, hget⟩, (stateAt_eq hget).symm.trans hstate⟩

/-- A check that passes finds an attempt of every task. -/
theorem exists_currentAt_of_checkInitiated (h : t.Sound)
    (hok : checkInitiated t = .ok ()) (hi : i < t.tasks.size) :
    ∃ a, currentAt t i = some a := by
  obtain ⟨id, hid⟩ := exists_taskIdAt hi
  obtain ⟨o, ho, hoid⟩ := h.owned i id hid
  have hmem := (h.staffed.mem_tasks ho).mpr ⟨id, hid, hoid.symm⟩
  have hget : t.tasks[i]? = some t.tasks[i] := by simp [hi]
  have hcheck := forM_eq_ok_iff.mp (forM_eq_ok_iff.mp hok o ho) t.tasks[i]
    (mem_tasksOf.mpr ⟨i, hmem, hget⟩)
  cases ha : attemptOf t t.tasks[i] with
  | error e => simp [ha, discard, Functor.mapConst, Except.map] at hcheck
  | ok a => exact ⟨a, (attemptOf_eq_ok hget).mp ha⟩

section Started

variable (hstarted : ∀ i < t.tasks.size, ∃ a, currentAt t i = some a)

include hstarted

theorem exists_attemptOf {is : List Nat} (htask : task ∈ t.tasksOf is) :
    ∃ a, attemptOf t task = .ok a := by
  obtain ⟨i, -, hget⟩ := mem_tasksOf.mp htask
  obtain ⟨a, ha⟩ := hstarted i (Array.getElem?_eq_some_iff.mp hget).1
  exact ⟨a, (attemptOf_eq_ok hget).mpr ha⟩

/-- The check passes when every task has an attempt. -/
theorem checkInitiated_eq_ok : checkInitiated t = .ok () := by
  refine forM_eq_ok_iff.mpr fun o _ => forM_eq_ok_iff.mpr fun task htask => ?_
  obtain ⟨a, ha⟩ := exists_attemptOf hstarted htask
  rw [ha]
  rfl

end Started

/-- A check that passes finds every task waited for running. -/
theorem inState_of_checkRunning {waitFor : List TaskAttempt}
    (hok : checkRunning t waitFor = .ok ()) :
    ∀ a ∈ waitFor, t.InState a.task .running := by
  intro a ha
  have hcheck := forM_eq_ok_iff.mp hok a ha
  cases htask : t.task a.task with
  | error e => simp [htask] at hcheck
  | ok task =>
    simp only [htask] at hcheck
    split at hcheck
    · rename_i hstate
      exact ⟨task, htask, hstate⟩
    · cases hcheck

/-- A check that fails names a task waited for that does not run. -/
theorem checkRunning_cases {waitFor : List TaskAttempt}
    (hknown : ∀ a ∈ waitFor, ∃ task, t.task a.task = .ok task) :
    checkRunning t waitFor = .ok () ∨
      ∃ a ∈ waitFor, ¬ t.InState a.task .running ∧ checkRunning t waitFor =
        .error (.notRunning (taskLabel t a.task) t.graph.name) := by
  unfold checkRunning
  refine (forM_cases _ waitFor).imp_right ?_
  rintro ⟨a, ha, e, herror, hfailed⟩
  refine ⟨a, ha, ?_⟩
  obtain ⟨task, htask⟩ := hknown a ha
  rw [hfailed]
  simp only [htask] at herror
  split at herror
  · cases herror
  · rename_i hstate
    cases herror
    refine ⟨?_, rfl⟩
    rintro ⟨task', htask', hrunning⟩
    rw [htask, Except.ok.injEq] at htask'
    exact hstate (htask' ▸ hrunning)

end Attempts

end Checkpoint

end ControlPlane
