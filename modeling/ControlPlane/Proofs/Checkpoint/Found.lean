import Mathlib
import ControlPlane.Proofs.Checkpoint.Drafts
import ControlPlane.Proofs.Topology.InRange

/-!
# Planning finds what it looks up

In the middle of its loops the planning of a checkpoint looks up operators by
id, and their statuses and bits by position. Every operator named in an edge
or by a task is there, its status stands at its place, and the status has a
bit for each of its subtasks. So no plan is given up because the topology
contradicts itself.
-/

namespace ControlPlane.Checkpoint

open ControlPlane.Topology

theorem RunningStatus.Sound.lt_size_words {s : RunningStatus} (h : s.Sound)
    {i : Nat} (hi : i < s.length) : i / 64 < s.words.size := by
  rw [h.size]
  omega

/-- The places that planning a checkpoint goes by are there. Statuses are kept
by the position of the operator, with one bit for each subtask. -/
structure InRange (t : Topology) : Prop where
  /-- A scope has a target for every operator. -/
  targets : ∀ scope ts, targets t scope = .ok ts →
    ts.length = t.operators.length
  /-- An input comes from an operator that has a status. -/
  inputs : ∀ planned, ∀ o ∈ t.operators, ∀ e ∈ o.inputs,
    ∃ pos < (statusesOf t planned).size, t.operatorAt e.producer = .ok pos
  /-- A task has a bit in the status of its operator. -/
  tasks : ∀ planned, ∀ task ∈ t.tasks, ∃ pos s,
    t.operatorAt task.id.vertex = .ok pos ∧
      (statusesOf t planned)[pos]? = some s ∧
      task.id.subtask < s.length ∧ task.id.subtask / 64 < s.words.size
  /-- There is a bit for each of the tasks that an operator lists. -/
  bits : ∀ o ∈ t.operators, ∀ k < o.tasks.length,
    k < (runningStatus t o).length ∧ k / 64 < (runningStatus t o).words.size

section Found

variable {t : Topology} {o : Operator} {allow : Bool} {scope : Scope}
  {f : Failure}

/-- An operator is found by its id, and its status at the same place. -/
theorem exists_status (planned : Operator → Bool) (h : t.Sound)
    (ho : o ∈ t.operators) : ∃ pos s, t.operatorAt o.id = .ok pos ∧
      (statusesOf t planned)[pos]? = some s ∧ s.Sound ∧
      s.length = o.tasks.length := by
  obtain ⟨pos, hpos⟩ := List.mem_iff_getElem?.mp ho
  have hindex := (h.staffed.operatorIndex o.id pos).mpr (by simp [hpos])
  obtain ⟨hsound, hlength, -⟩ := runningStatus_spec h ho
  refine ⟨pos, if planned o then runningStatus t o
      else (runningStatus t o).clear, operatorAt_eq_ok.mpr hindex,
    by simp [statusesOf, hpos], ?_⟩
  split
  · exact ⟨hsound, hlength⟩
  · exact ⟨hsound.clear, hlength⟩

theorem inRange_of_whole (h : t.Whole) : InRange t where
  targets scope ts hts := by
    obtain ⟨f, rfl, -⟩ := exists_of_targets h.toSound hts
    exact List.length_map ..
  inputs planned o ho e he := by
    obtain ⟨o', ho', hid⟩ := h.staffed.exists_producer ho he
    obtain ⟨pos, s, hpos, hs, -⟩ := exists_status planned h.toSound ho'
    exact ⟨pos, (Array.getElem?_eq_some_iff.mp hs).1, hid ▸ hpos⟩
  tasks planned task htask := by
    obtain ⟨i, hi, -⟩ := exists_of_mem_tasks htask
    obtain ⟨o, ho, hid⟩ := h.owned i _ hi
    obtain ⟨pos, s, hpos, hs, hsound, hlength⟩ :=
      exists_status planned h.toSound ho
    have hlt : task.id.subtask < s.length := by
      rw [hlength, h.staffed.length_tasks ho]
      exact h.staffed.subtask_lt ho hi hid.symm
    exact ⟨pos, s, hid ▸ hpos, hs, hlt, hsound.lt_size_words hlt⟩
  bits o ho k hk := by
    obtain ⟨hsound, hlength, -⟩ := runningStatus_spec h.toSound ho
    rw [← hlength] at hk
    exact ⟨hk, hsound.lt_size_words hk⟩

/-! ## Failures -/

theorem reason_of_targets_eq_error (hf : targets t scope = .error f) :
    f.reason = .invalidScope := by
  cases scope with
  | job => cases hf
  | group name =>
    rw [targets] at hf
    split at hf
    · cases hf
    · cases hf
      rfl
  | rescale vertex blocked =>
    rw [targets] at hf
    split at hf
    · cases hf
      rfl
    · cases hf

theorem reason_of_attemptOf_eq_error {task : Task}
    (hf : attemptOf t task = .error f) : f.reason = .notAllRunning := by
  unfold attemptOf at hf
  split at hf
  · cases hf
  · cases hf
    rfl

theorem reason_of_checkInitiated_eq_error
    (hf : checkInitiated t = .error f) : f.reason = .notAllRunning := by
  unfold checkInitiated at hf
  rcases forM_cases (fun o : Operator => (t.tasksOf o.tasks).forM
      fun task => discard (attemptOf t task)) t.operators with
    hok | ⟨o, -, e, ho, herror⟩
  · cases hf.symm.trans hok
  rcases forM_cases (fun task => discard (attemptOf t task))
      (t.tasksOf o.tasks) with hok | ⟨task, -, e', htask, herror'⟩
  · cases ho.symm.trans hok
  obtain rfl : f = e := Except.error.inj (hf.symm.trans herror)
  obtain rfl : f = e' := Except.error.inj (ho.symm.trans herror')
  cases hattempt : attemptOf t task with
  | ok a => simp [hattempt, discard, Functor.mapConst, Except.map] at htask
  | error e =>
    have hsame : e = f := by
      simpa [hattempt, discard, Functor.mapConst, Except.map] using htask
    exact reason_of_attemptOf_eq_error (hsame ▸ hattempt)

/-- There is no plan because of the scope, or because of a task that does not
run, and never because something is not found. -/
theorem reason_of_plan_eq_error (h : t.Whole)
    (hf : plan t allow scope = .error f) : f.reason ≠ .inconsistent := by
  rcases bind_eq_error_iff.mp hf with htargets | ⟨ts, hts, hrest⟩
  · rw [reason_of_targets_eq_error htargets]
    decide
  have hsome := hasFinishedTask_iff_someFinished h.toSound scope
  dsimp only at hrest
  generalize hasFinishedTask t _ = finished at hrest hsome
  by_cases habort : (finished && !allow) = true
  · rw [if_pos habort] at hrest
    cases hrest
    decide
  rw [if_neg habort] at hrest
  rcases bind_eq_error_iff.mp hrest with hinitiated | ⟨_, hinitiated, -⟩
  · rw [reason_of_checkInitiated_eq_error hinitiated]
    decide
  -- All that is left to fail is the check that the tasks waited for run.
  have hallow : SomeFinished t scope → allow = true := by
    intro hfinished
    simpa [hsome.mpr hfinished] using habort
  obtain ⟨p, hp⟩ := exists_draft allow
    (fun i hi => exists_currentAt_of_checkInitiated h.toSound hinitiated hi)
    h hts hallow
  rw [hp.plan_eq] at hf
  rcases checkRunning_cases (hp.known h.wired.indexed) with
    hok | ⟨a, -, -, herror⟩
  · rw [hok] at hf
    cases hf
  · rw [herror] at hf
    cases hf
    nofun

end Found

end ControlPlane.Checkpoint
