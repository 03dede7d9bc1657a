import Mathlib
import ControlPlane.Proofs.Job.Told

/-!
# Calls that fail

Every call to a job takes several steps that may fail, some of them after the
topology has changed. In the states that a job comes to, no step fails once
anything has changed. So a call that fails leaves the job as it was; only a
checkpoint that cannot be planned is counted.
-/

namespace ControlPlane

namespace FailoverStrategy

/-- A failed search for the tasks to restart leaves nothing reported lost. -/
theorem eq_of_tasksToRestart_eq_error {x x' : FailoverStrategy} {t : Topology}
    {isAvailable : PartitionId → Bool} {id : TaskId} {cause : FailureCause}
    {e : Error}
    (h : x.tasksToRestart t isAvailable id cause = (x', .error e)) :
    x' = x := by
  cases x with
  | full => exact (Prod.mk.inj h).1.symm
  | region lost =>
    unfold tasksToRestart restartRegions at h
    cases hregion : t.regionAt id with
    | error e' =>
      simp only [hregion, Prod.mk.injEq] at h
      exact h.1.symm
    | ok origin =>
    cases hcause : cause.partition? with
    | none => simp [hregion, hcause] at h
    | some partition =>
    cases hpartition : t.partitionAt partition with
    | error e' =>
      simp only [hregion, hcause, hpartition, Prod.mk.injEq] at h
      exact h.1.symm
    | ok p => simp [hregion, hcause, hpartition] at h

end FailoverStrategy

namespace JobState

open ControlPlane.Topology

/-- No call that fails changes anything but the count of the checkpoints that
were aborted. -/
structure FailsClean (s : JobState) : Prop where
  deploy : ∀ id s' e, s.deploy id = (s', .error e) → s' = s
  updateState : ∀ id state s' e,
    s.updateState id state = (s', .error e) → s' = s
  handleFailure : ∀ id cause s' e,
    s.handleFailure id cause = (s', .error e) → s' = s
  planCheckpoint : ∀ scope s' e, s.planCheckpoint scope = (s', .error e) →
    s' = { s with metrics := s.metrics.countAborted e.reason }
  rescale : ∀ sibling additional s' e,
    s.rescale sibling additional = (s', .error e) → s' = s

section Calls

variable {s s' : JobState} {kind : ReleaseKind} {finished : Set TaskId}

theorem eq_of_handleFailure_eq_error {id : TaskId} {cause : FailureCause}
    {e : Error} (h : s.handleFailure id cause = (s', .error e)) : s' = s := by
  unfold JobState.handleFailure at h
  split at h
  · rename_i failover e' hfailed
    cases h
    rw [FailoverStrategy.eq_of_tasksToRestart_eq_error hfailed]
  · cases h

theorem eq_of_planCheckpoint_eq_error {scope : Checkpoint.Scope}
    {e : Checkpoint.Failure} (h : s.planCheckpoint scope = (s', .error e)) :
    s' = { s with metrics := s.metrics.countAborted e.reason } := by
  unfold JobState.planCheckpoint at h
  split at h
  · cases h
  · cases h
    rfl

theorem Told.failsClean (h : s.Told kind finished) : s.FailsClean where
  deploy id s' e hfailed := by
    rcases h.deploy_cases id with
      ⟨e', herror, -⟩ | ⟨i, task, number, s'', hok, -⟩
    · exact (Prod.mk.inj (hfailed.symm.trans herror)).1
    · cases hfailed.symm.trans hok
  updateState id state s' e hfailed := by
    rcases h.updateState_cases id state with
      ⟨e', herror, -⟩ | ⟨i, a, s'', groups, hok, -⟩
    · exact (Prod.mk.inj (hfailed.symm.trans herror)).1
    · cases hfailed.symm.trans hok
  handleFailure _ _ _ _ := eq_of_handleFailure_eq_error
  planCheckpoint _ _ _ := eq_of_planCheckpoint_eq_error
  rescale sibling additional s' e hfailed := by
    rcases h.rescale_cases sibling additional with
      ⟨e', herror, -⟩ | ⟨s'', added, hok, -⟩
    · exact (Prod.mk.inj (hfailed.symm.trans herror)).1
    · cases hfailed.symm.trans hok

/-! ## Runs -/

/-- Whatever a call does, the release strategy has been told of it. -/
theorem Told.run (h : s.Told kind finished) (c : Call) :
    ∃ finished', (c.run s).Told kind finished' := by
  cases c with
  | deploy id =>
    rw [Call.run]
    rcases h.deploy_cases id with
      ⟨e, herror, -⟩ | ⟨i, task, number, s', hok, -, -, -, htold⟩
    · exact ⟨finished, by rwa [herror]⟩
    · exact ⟨_, by rwa [hok]⟩
  | updateState id state =>
    rw [Call.run]
    rcases h.updateState_cases id state with
      ⟨e, herror, -⟩ | ⟨i, a, s', groups, hok, hmoved⟩
    · exact ⟨finished, by rwa [herror]⟩
    · rw [hok]
      exact ⟨_, hmoved.told⟩
  | handleFailure id cause =>
    rw [Call.run, JobState.handleFailure]
    split <;> exact ⟨finished, h.reachable, h.told⟩
  | planCheckpoint scope =>
    rw [Call.run, JobState.planCheckpoint]
    split <;> exact ⟨finished, h.reachable, h.told⟩
  | rescale sibling additional =>
    rw [Call.run]
    rcases h.rescale_cases sibling additional with
      ⟨e, herror, -⟩ | ⟨s', added, hok, htold⟩
    · exact ⟨finished, by rwa [herror]⟩
    · exact ⟨finished, by rwa [hok]⟩

theorem Told.runAll (h : s.Told kind finished) (calls : List Call) :
    ∃ finished', (s.runAll calls).Told kind finished' := by
  induction calls generalizing s finished with
  | nil => exact ⟨finished, h⟩
  | cons c calls ih =>
    obtain ⟨finished', hstep⟩ := h.run c
    exact ih hstep

end Calls

/-- After any calls to a job, one that fails changes nothing but the count of
the checkpoints that were aborted. -/
theorem failsClean_runAll {t : Topology} (ht : t.Reachable) (config : Config)
    (isAvailable : PartitionId → Bool) (calls : List Call) :
    ((start t config isAvailable).runAll calls).FailsClean := by
  obtain ⟨finished, htold⟩ :=
    (told_start ht config isAvailable).runAll calls
  exact htold.failsClean

/-- The first sink of the small job has finished and is joined by another
one. -/
def grownJob : JobState :=
  (start sample {} (fun _ => true)).runAll [.deploy ⟨sampleSink, 0⟩,
    .updateState ⟨sampleSink, 0⟩ .finished, .rescale ⟨sampleSink, 0⟩ 1]

/-- The sinks cannot grow beyond the greatest parallelism, the new one has no
attempt that could finish, and a partition that does not exist is not lost.
The job stays as it is. -/
theorem failsClean_grownJob :
    (grownJob.rescale ⟨sampleSink, 0⟩ maxParallelism).1 = grownJob ∧
      (grownJob.updateState ⟨sampleSink, 2⟩ .finished).1 = grownJob ∧
      (grownJob.handleFailure ⟨sampleSink, 0⟩
        (.partition ⟨⟨⟨3⟩⟩, 7⟩ "lost")).1 = grownJob := by
  have hclean : grownJob.FailsClean :=
    failsClean_runAll reachable_sample {} (fun _ => true) _
  have hfailed : ∀ {α : Type} (x : Result α), x.2.isOk = false →
      ∃ s' e, x = (s', .error e) := by
    rintro α ⟨s', e | a⟩ hx
    · exact ⟨s', e, rfl⟩
    · cases hx
  refine ⟨?_, ?_, ?_⟩
  · obtain ⟨s', e, h⟩ := hfailed
      (grownJob.rescale ⟨sampleSink, 0⟩ maxParallelism) (by decide +kernel)
    rw [h]
    exact hclean.rescale _ _ _ _ h
  · obtain ⟨s', e, h⟩ := hfailed
      (grownJob.updateState ⟨sampleSink, 2⟩ .finished) (by decide +kernel)
    rw [h]
    exact hclean.updateState _ _ _ _ h
  · obtain ⟨s', e, h⟩ := hfailed
      (grownJob.handleFailure ⟨sampleSink, 0⟩
        (.partition ⟨⟨⟨3⟩⟩, 7⟩ "lost")) (by decide +kernel)
    rw [h]
    exact hclean.handleFailure _ _ _ _ h

end JobState

end ControlPlane
