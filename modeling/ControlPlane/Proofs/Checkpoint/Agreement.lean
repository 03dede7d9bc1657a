import Mathlib
import ControlPlane.Proofs.Checkpoint.Plan

/-!
# The two ways to plan agree

As long as no attempt has ended, a checkpoint of the whole job can be planned
in either way. What is asked for every task and every edge once tasks have
finished then comes down to whether an operator has inputs: the first input
of an operator feeds all of its tasks, by whichever pattern it is wired, and
an operator without inputs has no predecessors to search.
-/

namespace ControlPlane.Checkpoint

open ControlPlane.Topology

/-- Equal shares are put together to equal plans. -/
theorem exists_plan_of_shares {α : Type*}
    {share share' : α → Except Failure Plan} {xs : List α}
    (h : ∀ x ∈ xs, ∃ q, share x = .ok q ∧ share' x = .ok q) (p₀ : Plan) :
    ∃ p, xs.foldlM (fun plan x => do return plan.append (← share x)) p₀ =
        .ok p ∧
      xs.foldlM (fun plan x => do return plan.append (← share' x)) p₀ =
        .ok p := by
  induction xs generalizing p₀ with
  | nil => exact ⟨p₀, rfl, rfl⟩
  | cons x xs ih =>
    obtain ⟨q, hq, hq'⟩ := h x List.mem_cons_self
    rw [List.foldlM_cons, List.foldlM_cons, hq, hq']
    exact ih (fun y hy => h y (List.mem_cons_of_mem _ hy)) (p₀.append q)

/-- What an operator whose tasks all run adds to the plan, given their
attempts. -/
def fullShare (allowFinished : Bool) (o : Operator)
    (attempts : List TaskAttempt) : Plan where
  trigger := if o.isInput then attempts else []
  waitFor := attempts
  commitTo := attempts.map (·.task)
  mayHaveFinished := allowFinished

section Shares

variable {t : Topology} {o : Operator}

theorem runningShare_eq {attempts : List TaskAttempt}
    (h : (t.tasksOf o.tasks).mapM (attemptOf t) = .ok attempts)
    (allow : Bool) :
    runningShare t allow
        { operator := o, waited := true, triggered := o.isInput } =
      .ok (fullShare allow o attempts) := by
  simp only [runningShare, h]
  rfl

/-- A task that runs is triggered if its operator has no inputs, for then it
has no predecessors either. -/
theorem roleOf_eq {task : Task} {a : TaskAttempt}
    (ha : attemptOf t task = .ok a) :
    roleOf t (statusesOf t fun _ => true) o o.isInput true task =
      .ok ⟨a, true, o.isInput⟩ := by
  rw [roleOf, ha, Operator.isInput]
  cases hinputs : o.inputs with
  | nil =>
    rw [hasRunningPredecessor]
    rfl
  | cons e rest => rfl

theorem exists_attempts (hactive : ∀ i < t.tasks.size, t.IsActive i) :
    ∃ attempts, (t.tasksOf o.tasks).mapM (attemptOf t) = .ok attempts :=
  exists_mapM_eq_ok fun _ => exists_attemptOf fun i hi =>
    exists_currentAt_of_isActive (hactive i hi)

/-! ## While no attempt has ended -/

variable (h : t.Whole) (hactive : ∀ i < t.tasks.size, t.IsActive i)
  (ho : o ∈ t.operators)

include h hactive ho

theorem runs_of_mem : ∀ i ∈ o.tasks, Runs t (fun _ => true) i :=
  fun i hi => ⟨hactive i (h.staffed.lt_of_mem_tasks ho i hi), o, ho, rfl, hi⟩

/-- An operator is fed as a whole through its first input. -/
theorem mustTrigger_eq_isInput :
    mustTrigger t (statusesOf t fun _ => true) o.inputs = .ok o.isInput := by
  rw [Operator.isInput]
  cases hinputs : o.inputs with
  | nil => rfl
  | cons e rest =>
    -- The search stops at this input, whatever comes behind it.
    obtain ⟨o', ho', hid⟩ := h.staffed.exists_producer ho
      (e := e) (by simp [hinputs])
    obtain ⟨s, hs, hsound, hlength, hmem⟩ :=
      exists_statusOf (fun _ => true) h.toSound ho'
    have hruns := runs_of_mem h hactive ho'
    have hall : ∀ k < s.length, s.contains k = true := fun k hk =>
      have hk' : k < o'.tasks.length := hlength ▸ hk
      (hmem k).mpr ⟨_, List.getElem?_eq_getElem hk',
        hruns _ (List.getElem_mem hk')⟩
    have hpos : 0 < s.length := by
      rw [hlength]
      exact List.length_pos_iff.mpr (h.tasks_ne_nil ho')
    rw [mustTrigger, anyM_cons_eq_true]
    · rfl
    · rw [← hid, hs]
      cases e.pattern with
      | allToAll =>
        have hsome := hsound.cardinality_pos.mpr ⟨0, hall 0 hpos⟩
        exact congrArg Except.ok (decide_eq_true hsome)
      | pointwise => exact congrArg Except.ok (hsound.allRunning_iff.mpr hall)

theorem noneRunning_eq_false : (runningStatus t o).noneRunning = false := by
  rw [← Bool.not_eq_true, noneRunning_runningStatus h.toSound ho]
  obtain ⟨i, hi⟩ := List.exists_mem_of_ne_nil _ (h.tasks_ne_nil ho)
  exact fun hnone =>
    hnone i hi (hactive i (h.staffed.lt_of_mem_tasks ho i hi))

theorem roles_eq {attempts : List TaskAttempt}
    (hattempts : (t.tasksOf o.tasks).mapM (attemptOf t) = .ok attempts) :
    (t.tasksOf o.tasks).zipIdx.mapM (fun (task, subtask) =>
        roleOf t (statusesOf t fun _ => true) o o.isInput
          ((runningStatus t o).contains subtask) task) =
      .ok (attempts.map fun a => ⟨a, true, o.isInput⟩) := by
  obtain ⟨-, -, hcontains⟩ := runningStatus_spec h.toSound ho
  have hlt := h.staffed.lt_of_mem_tasks ho
  -- All tasks are active, so every subtask is marked as running.
  have hruns : ∀ x ∈ (t.tasksOf o.tasks).zipIdx,
      (runningStatus t o).contains x.2 = true := by
    intro x hx
    obtain ⟨i, hi, -⟩ := (mem_zipIdx_tasksOf hlt).mp hx
    exact (hcontains x.2).mpr
      ⟨i, hi, hactive i (hlt i (List.mem_of_getElem? hi))⟩
  have hplaced : List.Forall₂ (fun x a => attemptOf t x.1 = .ok a)
      (t.tasksOf o.tasks).zipIdx attempts := by
    rw [← List.zipIdx_map_fst 0 (t.tasksOf o.tasks), mapM_eq_ok_iff,
      List.forall₂_map_left_iff] at hattempts
    exact hattempts
  rw [mapM_eq_ok_iff, List.forall₂_map_right_iff]
  refine ((List.forall₂_and_left ..).mpr ⟨hruns, hplaced⟩).imp ?_
  rintro ⟨task, subtask⟩ a ⟨hrun, ha⟩
  dsimp only at hrun ha ⊢
  rw [hrun]
  exact roleOf_eq ha

theorem finishedShare_eq {attempts : List TaskAttempt}
    (hattempts : (t.tasksOf o.tasks).mapM (attemptOf t) = .ok attempts)
    (allow : Bool) :
    finishedShare t allow (statusesOf t fun _ => true) o (runningStatus t o) =
      .ok (fullShare allow o attempts) := by
  rw [finishedShare, noneRunning_eq_false h hactive ho,
    mustTrigger_eq_isInput h hactive ho]
  simp only [roles_eq h hactive ho hattempts, bind, Except.bind, pure,
    Except.pure, Bool.false_eq_true, if_false, fullShare]
  cases o.isInput <;> simp [List.filter_map, Function.comp_def]

end Shares

/-- A checkpoint of the whole job is planned the same in either way, as long
as every task has an attempt and none has ended. -/
theorem planWhileRunning_eq_planAfterFinish {t : Topology} (h : t.Reachable)
    (hactive : ∀ i < t.tasks.size, t.IsActive i) (allow : Bool) :
    ∃ ts p, targets t .job = .ok ts ∧ planWhileRunning t allow ts = .ok p ∧
      planAfterFinish t allow (t.operators.map fun _ => true) = .ok p := by
  have hstep : ∀ o ∈ t.operators, ∃ q,
      runningShare t allow
        { operator := o, waited := true, triggered := o.isInput } = .ok q ∧
      finishedShare t allow (statusesOf t fun _ => true) o
        (runningStatus t o) = .ok q := by
    intro o ho
    obtain ⟨attempts, hattempts⟩ := exists_attempts (o := o) hactive
    exact ⟨_, runningShare_eq hattempts allow,
      finishedShare_eq h.whole hactive ho hattempts allow⟩
  rw [planAfterFinish_eq, List.filter_true]
  obtain ⟨p, hrunning, hfinished⟩ :=
    exists_plan_of_shares hstep { mayHaveFinished := allow }
  refine ⟨_, p, rfl, ?_, hfinished⟩
  rw [planWhileRunning, List.foldlM_map]
  exact hrunning

/-- The small job with every task running, planned as if some had
finished. -/
theorem planAfterFinish_runningSample :
    let t := sampleIn fun _ => .running
    planAfterFinish t false (t.operators.map fun _ => true) = .ok
      { trigger := [⟨⟨sampleSource, 0⟩, 0⟩, ⟨⟨sampleSource, 1⟩, 0⟩]
        waitFor := [⟨⟨sampleSource, 0⟩, 0⟩, ⟨⟨sampleSource, 1⟩, 0⟩,
          ⟨⟨sampleSink, 0⟩, 0⟩, ⟨⟨sampleSink, 1⟩, 0⟩]
        commitTo := [⟨sampleSource, 0⟩, ⟨sampleSource, 1⟩,
          ⟨sampleSink, 0⟩, ⟨sampleSink, 1⟩]
        mayHaveFinished := false } := by
  intro t
  have hactive : ∀ i < t.tasks.size, t.IsActive i := by
    have hany : ∀ i < t.tasks.size,
        (t.attemptAt i).any (!·.isFinished) = true := by decide +kernel
    intro i hi
    obtain ⟨a, ha, hrun⟩ := (Option.any_eq_true ..).mp (hany i hi)
    exact ⟨a, ha, by simpa using hrun⟩
  obtain ⟨ts, p, hts, hp, hp'⟩ := planWhileRunning_eq_planAfterFinish
    (reachable_sampleIn fun _ => .running) hactive false
  cases hts
  rw [hp', ← hp]
  decide +kernel

end ControlPlane.Checkpoint
