import Mathlib
import ControlPlane.Proofs.Checkpoint.Plan

/-!
# The states of the tasks in a plan

A task is left out of a plan once its attempt has ended, whether it has
finished, failed or was canceled; only the tasks waited for are checked to be
running. So the tasks listed as finished have finished if none of the planned
ones has failed or was canceled, and the tasks that are triggered run if those
at which the barrier enters do.
-/

namespace ControlPlane

theorem TaskState.isTerminal_iff {state : TaskState} :
    state.isTerminal = true ↔
      state = .finished ∨ state = .canceled ∨ state = .failed := by
  cases state <;> decide

namespace Checkpoint

open ControlPlane.Topology

section States

variable {t : Topology} {scope : Scope} {allow : Bool} {p : Plan}

/-- The attempts that a plan lists are the current ones. -/
theorem isCurrent_of_mem_trigger (h : t.Whole)
    (hok : plan t allow scope = .ok p) : ∀ a ∈ p.trigger, IsCurrent t a := by
  obtain ⟨-, -, ⟨-, hp⟩ | ⟨-, hp⟩⟩ := of_plan h hok
  · intro a ha
    obtain ⟨-, i, hi, -⟩ := (hp.trigger a).mp ha
    exact isCurrent_of_currentAt h.wired.indexed hi
  · intro a ha
    obtain ⟨-, i, hi⟩ := (hp.trigger a).mp ha
    exact isCurrent_of_currentAt h.wired.indexed hi

/-- After some tasks have finished, those triggered are waited for. -/
theorem AfterFinish.mem_waitFor (hp : AfterFinish t scope p)
    {a : TaskAttempt} (ha : a ∈ p.trigger) : a ∈ p.waitFor := by
  obtain ⟨hplanned, i, hi, hactive, -⟩ := (hp.trigger a).mp ha
  exact (hp.waitFor a).mpr ⟨hplanned, i, hi, hactive⟩

/-- A task that is left out has finished unless it has failed or was
canceled. -/
theorem inState_finished_of_not_isActive (h : t.Indexed) {i : Nat}
    {id : TaskId} (hi : t.taskIdAt i = some id) {a : Attempt}
    (ha : t.attemptAt i = some a) (hnot : ¬ t.IsActive i)
    (hfailed : ¬ t.InState id .failed) (hcanceled : ¬ t.InState id .canceled) :
    t.InState id .finished := by
  rw [h.inState_iff hi] at *
  rcases TaskState.isTerminal_iff.mp (isTerminal_of_not_isActive ha hnot) with
    hstate | hstate | hstate
  · exact hstate
  · exact absurd hstate hcanceled
  · exact absurd hstate hfailed

end States

/-- The tasks listed as finished, and those of the vertices listed as fully
finished, have all finished exactly if, in a plan made after some task has
finished, no task of a planned vertex has failed or was canceled. -/
theorem listed_finished_iff {t : Topology} (h : t.Reachable) {scope : Scope}
    {allow : Bool} {p : Plan} (hok : plan t allow scope = .ok p) :
    ((∀ a ∈ p.finished, t.InState a.task .finished) ∧
      ∀ v ∈ p.fullyFinished, ∀ i id, t.taskIdAt i = some id →
        id.vertex = v → t.InState id .finished) ↔
      (SomeFinished t scope → ∀ id, Planned t.graph scope id.vertex →
        ¬ t.InState id .failed ∧ ¬ t.InState id .canceled) := by
  have hindexed := h.whole.wired.indexed
  obtain ⟨hstarted, -, ⟨hsome, hp⟩ | ⟨hnone, hp⟩⟩ := of_plan h.whole hok
  · constructor
    · rintro ⟨hfinished, -⟩ - id hplanned
      -- A task that has ended otherwise would be listed as finished.
      have hnot : ∀ {state : TaskState}, state.isTerminal = true →
          state ≠ .finished → ¬ t.InState id state := by
        intro state hterminal hne hstate
        obtain ⟨i, hi, hat⟩ := hindexed.exists_of_inState hstate
        obtain ⟨a, ha⟩ := hstarted i (lt_of_taskIdAt hi)
        have hid := (currentAt_eq_some.mp ha).1
        rw [hi, Option.some.injEq] at hid
        subst hid
        have hlisted := hfinished a ((hp.finished a).mpr
          ⟨hplanned, i, ha, not_isActive_of_isTerminal (hat ▸ hterminal)⟩)
        rw [hindexed.inState_iff hi, hat] at hlisted
        exact hne hlisted
      exact ⟨hnot rfl (by decide), hnot rfl (by decide)⟩
    · intro hnone
      have hall : ∀ i id, t.taskIdAt i = some id →
          Planned t.graph scope id.vertex → ¬ t.IsActive i →
          t.InState id .finished := by
        intro i id hi hplanned hnot
        obtain ⟨a, ha⟩ := hstarted i (lt_of_taskIdAt hi)
        obtain ⟨-, attempt, hattempt, -⟩ := currentAt_eq_some.mp ha
        obtain ⟨hfailed, hcanceled⟩ := hnone hsome id hplanned
        exact inState_finished_of_not_isActive hindexed hi hattempt hnot
          hfailed hcanceled
      constructor
      · intro a ha
        obtain ⟨hplanned, i, hi, hnot⟩ := (hp.finished a).mp ha
        exact hall i _ (currentAt_eq_some.mp hi).1 hplanned hnot
      · rintro v hv i id hi rfl
        obtain ⟨hplanned, o, ho, hid, hnot⟩ := (hp.fullyFinished _).mp hv
        exact hall i id hi hplanned (hnot i
          ((h.whole.staffed.mem_tasks ho).mpr ⟨id, hi, hid.symm⟩))
  · simp [hp.finished, hp.fullyFinished, hnone]

/-- After the sources have finished and nothing has failed, those listed have
finished. -/
theorem listed_finished_finishedSample :
    ∃ p, plan finishedSample true (.rescale sampleSink [sampleSource]) = .ok p ∧
      p.finished = [⟨⟨sampleSource, 0⟩, 0⟩, ⟨⟨sampleSource, 1⟩, 0⟩] ∧
      (((∀ a ∈ p.finished, finishedSample.InState a.task .finished) ∧
        ∀ v ∈ p.fullyFinished, ∀ i id, finishedSample.taskIdAt i = some id →
          id.vertex = v → finishedSample.InState id .finished) ↔
        (SomeFinished finishedSample (.rescale sampleSink [sampleSource]) →
          ∀ id, Planned finishedSample.graph
            (.rescale sampleSink [sampleSource]) id.vertex →
            ¬ finishedSample.InState id .failed ∧
              ¬ finishedSample.InState id .canceled)) :=
  ⟨_, plan_finishedSample, rfl,
    listed_finished_iff (reachable_sampleIn _) plan_finishedSample⟩

/-- The small job after one of the sources has finished and the other one has
failed. -/
def failedSample : Topology :=
  sampleIn fun id =>
    if id = ⟨sampleSource, 0⟩ then .finished
    else if id = ⟨sampleSource, 1⟩ then .failed
    else .running

/-- The source that has failed is listed as finished, and its vertex as fully
finished. -/
theorem failed_listed_finished :
    failedSample.Reachable ∧ ∃ p, plan failedSample true .job = .ok p ∧
      ⟨⟨sampleSource, 1⟩, 0⟩ ∈ p.finished ∧ sampleSource ∈ p.fullyFinished ∧
      failedSample.InState ⟨sampleSource, 1⟩ .failed ∧
      ¬ failedSample.InState ⟨sampleSource, 1⟩ .finished := by
  have hreachable : failedSample.Reachable := reachable_sampleIn _
  have hok : plan failedSample true .job = .ok
      { trigger := [⟨⟨sampleSink, 0⟩, 0⟩, ⟨⟨sampleSink, 1⟩, 0⟩]
        waitFor := [⟨⟨sampleSink, 0⟩, 0⟩, ⟨⟨sampleSink, 1⟩, 0⟩]
        commitTo := [⟨sampleSink, 0⟩, ⟨sampleSink, 1⟩]
        finished := [⟨⟨sampleSource, 0⟩, 0⟩, ⟨⟨sampleSource, 1⟩, 0⟩]
        fullyFinished := [sampleSource]
        mayHaveFinished := true } := by
    decide +kernel
  have hid : failedSample.taskIdAt 1 = some ⟨sampleSource, 1⟩ := by
    decide +kernel
  have hstate : failedSample.stateAt 1 = .failed := by decide +kernel
  have hin : ∀ state, failedSample.InState ⟨sampleSource, 1⟩ state ↔
      failedSample.stateAt 1 = state := fun _ =>
    hreachable.whole.wired.indexed.inState_iff hid
  refine ⟨hreachable, _, hok, by decide, by decide, (hin _).mpr hstate, ?_⟩
  rw [hin, hstate]
  decide

/-- Every task that is triggered carries its current attempt. They all run
when the plan is for the whole job or made after some task has finished, and
otherwise exactly if every task does at which the barrier enters: it is not
checked that these run. -/
theorem triggered_running_iff {t : Topology} (h : t.Reachable) {scope : Scope}
    {allow : Bool} {p : Plan} (hok : plan t allow scope = .ok p) :
    (∀ a ∈ p.trigger, IsCurrent t a) ∧
      (scope = .job → ∀ a ∈ p.trigger, t.InState a.task .running) ∧
      ((∀ a ∈ p.trigger, t.InState a.task .running) ↔
        SomeFinished t scope ∨ ∀ i id, t.taskIdAt i = some id →
          Entered t.graph scope id.vertex → t.InState id .running) := by
  refine ⟨isCurrent_of_mem_trigger h.whole hok, ?_⟩
  obtain ⟨hstarted, hrunning, ⟨hsome, hp⟩ | ⟨hnone, hp⟩⟩ := of_plan h.whole hok
  · have hall : ∀ a ∈ p.trigger, t.InState a.task .running :=
      fun a ha => hrunning a (hp.mem_waitFor ha)
    exact ⟨fun _ => hall, fun _ => .inl hsome, fun _ => hall⟩
  · refine ⟨?_, ?_, ?_⟩
    · rintro rfl a ha
      obtain ⟨-, i, hi⟩ := (hp.trigger a).mp ha
      exact hrunning a ((hp.waitFor a).mpr ⟨trivial, i, hi⟩)
    · intro htriggered
      refine .inr fun i id hi hentered => ?_
      obtain ⟨a, ha⟩ := hstarted i (lt_of_taskIdAt hi)
      have hid := (currentAt_eq_some.mp ha).1
      rw [hi, Option.some.injEq] at hid
      subst hid
      exact htriggered a ((hp.trigger a).mpr ⟨hentered, i, ha⟩)
    · intro hentered a ha
      obtain ⟨hin, i, hi⟩ := (hp.trigger a).mp ha
      exact hentered.resolve_left hnone i _ (currentAt_eq_some.mp hi).1 hin

/-- After the sources have finished, only sinks that run are triggered. -/
theorem triggered_running_finishedSample :
    ∃ p, plan finishedSample true (.rescale sampleSink [sampleSource]) = .ok p ∧
      p.trigger = [⟨⟨sampleSink, 0⟩, 0⟩, ⟨⟨sampleSink, 1⟩, 0⟩] ∧
      (∀ a ∈ p.trigger, IsCurrent finishedSample a) ∧
      (Scope.rescale sampleSink [sampleSource] = .job →
        ∀ a ∈ p.trigger, finishedSample.InState a.task .running) ∧
      ((∀ a ∈ p.trigger, finishedSample.InState a.task .running) ↔
        SomeFinished finishedSample (.rescale sampleSink [sampleSource]) ∨
          ∀ i id, finishedSample.taskIdAt i = some id →
            Entered finishedSample.graph (.rescale sampleSink [sampleSource])
              id.vertex → finishedSample.InState id .running) :=
  ⟨_, plan_finishedSample, rfl,
    triggered_running_iff (reachable_sampleIn _) plan_finishedSample⟩

/-- The small job while its sources are only being deployed. -/
def deployingSample : Topology :=
  sampleIn fun id => if id.vertex = sampleSource then .deploying else .running

/-- Before the sinks are rescaled, the barrier is sent to the sources although
they do not run. -/
theorem deploying_triggered :
    deployingSample.Reachable ∧ ∃ p,
      plan deployingSample true (.rescale sampleSink [sampleSource]) = .ok p ∧
      ⟨⟨sampleSource, 0⟩, 0⟩ ∈ p.trigger ∧
      deployingSample.InState ⟨sampleSource, 0⟩ .deploying ∧
      ¬ deployingSample.InState ⟨sampleSource, 0⟩ .running := by
  have hreachable : deployingSample.Reachable := reachable_sampleIn _
  have hok : plan deployingSample true (.rescale sampleSink [sampleSource]) =
      .ok
        { trigger := [⟨⟨sampleSource, 0⟩, 0⟩, ⟨⟨sampleSource, 1⟩, 0⟩]
          waitFor := [⟨⟨sampleSink, 0⟩, 0⟩, ⟨⟨sampleSink, 1⟩, 0⟩]
          commitTo := [⟨sampleSink, 0⟩, ⟨sampleSink, 1⟩]
          mayHaveFinished := true } := by
    decide +kernel
  have hid : deployingSample.taskIdAt 0 = some ⟨sampleSource, 0⟩ := by
    decide +kernel
  have hstate : deployingSample.stateAt 0 = .deploying := by decide +kernel
  have hin : ∀ state, deployingSample.InState ⟨sampleSource, 0⟩ state ↔
      deployingSample.stateAt 0 = state := fun _ =>
    hreachable.whole.wired.indexed.inState_iff hid
  refine ⟨hreachable, _, hok, by decide, (hin _).mpr hstate, ?_⟩
  rw [hin, hstate]
  decide

end Checkpoint

end ControlPlane
