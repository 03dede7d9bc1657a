import ControlPlane.Checkpoint.Failure

/-! # Metrics

Counters of what the control plane of a job has done. -/
namespace ControlPlane

/-- The counters of one job. -/
structure Metrics where
  plansComputed : Nat := 0
  /-- The number of aborted plans for every reason that occurred. -/
  plansAborted : List (Checkpoint.Reason × Nat) := []
  failoversHandled : Nat := 0
  tasksRestarted : Nat := 0
  groupsReleased : Nat := 0
deriving DecidableEq, Inhabited, Repr

namespace Metrics

/-- Adds one to the count of a reason. -/
def bump (reason : Checkpoint.Reason) :
    List (Checkpoint.Reason × Nat) → List (Checkpoint.Reason × Nat)
  | [] => [(reason, 1)]
  | (r, n) :: rest =>
    if r = reason then (r, n + 1) :: rest else (r, n) :: bump reason rest

/-- Counts a plan. -/
def countPlan (m : Metrics) : Metrics :=
  { m with plansComputed := m.plansComputed + 1 }

/-- Counts an aborted plan. -/
def countAborted (m : Metrics) (reason : Checkpoint.Reason) : Metrics :=
  { m with plansAborted := bump reason m.plansAborted }

/-- Counts a failure by which so many tasks restart. -/
def countFailover (m : Metrics) (restarted : Nat) : Metrics :=
  { m with
    failoversHandled := m.failoversHandled + 1
    tasksRestarted := m.tasksRestarted + restarted }

/-- Counts released groups. -/
def countReleased (m : Metrics) (groups : Nat) : Metrics :=
  { m with groupsReleased := m.groupsReleased + groups }

/-- Whether a plan was ever computed. -/
def hasPlanned (m : Metrics) : Bool := 0 < m.plansComputed

/-- The number of aborted plans, whatever the reason. -/
def abortedTotal (m : Metrics) : Nat :=
  m.plansAborted.foldr (fun count total => count.2 + total) 0

theorem foldr_bump (reason : Checkpoint.Reason)
    (counts : List (Checkpoint.Reason × Nat)) :
    (bump reason counts).foldr (fun count total => count.2 + total) 0 =
      counts.foldr (fun count total => count.2 + total) 0 + 1 := by
  induction counts with
  | nil => rfl
  | cons c rest ih =>
    simp only [bump]
    split <;> simp [ih] <;> omega

@[simp] theorem abortedTotal_countAborted (m : Metrics)
    (reason : Checkpoint.Reason) :
    (m.countAborted reason).abortedTotal = m.abortedTotal + 1 :=
  foldr_bump reason m.plansAborted

end Metrics

end ControlPlane
