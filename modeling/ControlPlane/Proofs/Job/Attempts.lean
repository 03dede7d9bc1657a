import Mathlib
import ControlPlane.Proofs.Job.Countdowns
import ControlPlane.Proofs.Topology.Attempts

/-!
# Attempts between deployments

Until a task is deployed again it has the same attempt, which is in the state
last reported for it. That holds of an attempt that has ended as of any other:
a late report takes it out of its final state, and it stays in that state iff
nothing else is reported.
-/

namespace ControlPlane

namespace JobState

open ControlPlane.Topology

/-- The state that a call reports, with the task it is reported for. -/
def Call.report? : Call → Option (TaskId × TaskState)
  | updateState id state => some (id, state)
  | _ => none

/-- What becomes of the attempt of a task while it is not deployed. -/
structure Outlives (s : JobState) (id : TaskId) (a : Attempt)
    (calls : List Call) : Prop where
  /-- The attempt is in the state last reported. -/
  last : (s.runAll calls).topology.currentAttempt id =
    some { a with state := lastState id a.state (calls.filterMap Call.report?) }
  /-- It stays as it is throughout iff no other state is reported. -/
  kept : (∀ done, done <+: calls →
      (s.runAll done).topology.currentAttempt id = some a) ↔
    ∀ state, .updateState id state ∈ calls → state = a.state
  /-- A deployment then attaches the next attempt. Numbers have 32 bits. -/
  next : ((s.runAll calls).deploy id).2 = .ok ((a.number + 1) % UInt32.size) ∧
    ((s.runAll calls).deploy id).1.topology.currentAttempt id =
      some ⟨(a.number + 1) % UInt32.size, .created⟩

section Reports

variable {s : JobState} {id : TaskId} {a : Attempt}

theorem foldl_attempt_topologyCalls {c : Call} (hc : c ≠ .deploy id)
    (a : Attempt) :
    c.topologyCalls.foldl (Topology.Call.attempt id) (some a) =
      some { a with state := lastState id a.state c.report?.toList } := by
  cases c with
  | deploy id' =>
    have hne : id' ≠ id := fun heq => hc (heq ▸ rfl)
    simp [Call.topologyCalls, Topology.Call.attempt, Call.report?, lastState,
      hne]
  | updateState id' state =>
    by_cases heq : id' = id <;>
      simp [Call.topologyCalls, Topology.Call.attempt, Call.report?,
        lastState, heq]
  | handleFailure _ _ | planCheckpoint _ | rescale _ _ => rfl

theorem currentAttempt_run (h : s.topology.Reachable)
    (hid : s.topology.HasTask id)
    (ha : s.topology.currentAttempt id = some a) {c : Call}
    (hc : c ≠ .deploy id) : (c.run s).topology.currentAttempt id =
      some { a with state := lastState id a.state c.report?.toList } := by
  rw [topology_run, h.currentAttempt_runAll hid, ha,
    foldl_attempt_topologyCalls hc]

/-- Until the next deployment, an attempt is in the state last reported. -/
theorem currentAttempt_runAll (h : s.topology.Reachable)
    (hid : s.topology.HasTask id)
    (ha : s.topology.currentAttempt id = some a) {calls : List Call}
    (hcalls : .deploy id ∉ calls) :
    (s.runAll calls).topology.currentAttempt id =
      some { a with
        state := lastState id a.state (calls.filterMap Call.report?) } := by
  induction calls generalizing s a with
  | nil => exact ha
  | cons c calls ih =>
    obtain ⟨hc, hcalls⟩ := not_or.mp (mt List.mem_cons.mpr hcalls)
    have hrun := currentAttempt_run h hid ha (Ne.symm hc)
    refine (ih (reachable_run h c) (hasTask_run h c hid) hrun hcalls).trans ?_
    rw [List.filterMap_cons]
    cases c.report? <;> rfl

theorem lastState_of_forall {state : TaskState}
    {reports : List (TaskId × TaskState)}
    (h : ∀ x ∈ reports, x.1 = id → x.2 = state) :
    lastState id state reports = state := by
  induction reports with
  | nil => rfl
  | cons x reports ih =>
    obtain ⟨hx, hrest⟩ := List.forall_mem_cons.mp h
    rw [lastState, List.foldl_cons]
    split
    · rename_i hid
      rw [hx hid]
      exact ih hrest
    · exact ih hrest

/-- An attempt that is not touched is one for which no other state is
reported. -/
theorem forall_currentAttempt_iff (h : s.topology.Reachable)
    (hid : s.topology.HasTask id)
    (ha : s.topology.currentAttempt id = some a) {calls : List Call}
    (hcalls : .deploy id ∉ calls) :
    (∀ done, done <+: calls →
        (s.runAll done).topology.currentAttempt id = some a) ↔
      ∀ state, .updateState id state ∈ calls → state = a.state := by
  constructor
  · intro hkept state hmem
    -- The attempt is the same before and after the report, which sets its
    -- state.
    obtain ⟨before, after, rfl⟩ := List.append_of_mem hmem
    have hbefore := hkept before (List.prefix_append _ _)
    have hafter := hkept (before ++ [.updateState id state])
      ⟨after, by simp⟩
    have hreachable : (s.runAll before).topology.Reachable := by
      rw [topology_runAll]
      exact h.runAll _
    rw [runAll, List.foldl_append] at hafter
    have hrun := currentAttempt_run hreachable (hasTask_runAll h before hid)
      hbefore (c := .updateState id state) (by simp)
    have hsame := Option.some.inj (hrun.symm.trans hafter)
    simpa [Call.report?, lastState] using congrArg Attempt.state hsame
  · intro hreports done hdone
    have hnot : .deploy id ∉ done := fun hmem => hcalls (hdone.subset hmem)
    rw [currentAttempt_runAll h hid ha hnot, lastState_of_forall]
    intro x hx hxid
    obtain ⟨c, hc, hreport⟩ := List.mem_filterMap.mp hx
    cases c with
    | updateState id' state =>
      cases hreport
      cases hxid
      exact hreports state (hdone.subset hc)
    | deploy _ | handleFailure _ _ | planCheckpoint _ | rescale _ _ =>
      cases hreport

/-- A deployment attaches the next attempt. -/
theorem Told.deploy_next {kind : ReleaseKind} {finished : Set TaskId}
    (h : s.Told kind finished) (hid : s.topology.HasTask id) :
    (s.deploy id).2 =
        .ok (Attempt.nextNumber (s.topology.currentAttempt id)) ∧
      (s.deploy id).1.topology.currentAttempt id =
        some ⟨Attempt.nextNumber (s.topology.currentAttempt id), .created⟩ := by
  have hrun := h.reachable.currentAttempt_run hid (.attachAttempt id)
  rw [Topology.Call.attempt, if_pos rfl, ← topology_deploy] at hrun
  refine ⟨?_, hrun⟩
  rcases h.deploy_cases id with
    ⟨e, -, hnone⟩ | ⟨i, task, number, s', hok, hi, -, ha, -⟩
  · obtain ⟨i, hi⟩ := hid
    exact absurd hi (hnone i)
  · rw [hok] at hrun ⊢
    rw [ha.currentAttempt_eq h.reachable.whole hi hid, if_pos rfl] at hrun
    exact congrArg Except.ok
      (congrArg Attempt.number (Option.some.inj hrun))

end Reports

/-- Whether it has ended or not, the attempt of a task is taken to every state
that is reported before the next deployment. -/
theorem outlives_runAll {graph : JobGraph} (hgraph : graph.Built)
    {t : Topology} (ht : ofJobGraph graph = .ok t) (config : Config)
    (isAvailable : PartitionId → Bool) (calls : List Call) {id : TaskId}
    {a : Attempt}
    (ha : ((start t config isAvailable).runAll calls).topology.currentAttempt
      id = some a) {more : List Call} (hmore : .deploy id ∉ more) :
    ((start t config isAvailable).runAll calls).Outlives id a more := by
  obtain ⟨finished, htold⟩ :=
    (told_start (.built hgraph ht) config isAvailable).runAll calls
  have hid : ((start t config isAvailable).runAll calls).topology.HasTask
      id := htold.indexed.hasTask_of_currentAttempt ha
  obtain ⟨finished', htold'⟩ := htold.runAll more
  have hlast := currentAttempt_runAll htold.reachable hid ha hmore
  refine ⟨hlast, forall_currentAttempt_iff htold.reachable hid ha hmore, ?_⟩
  have hnext := htold'.deploy_next (hasTask_runAll htold.reachable more hid)
  rw [hlast] at hnext
  exact hnext

/-- The first sink of the small job has finished, and the job goes on. -/
def lateCalls : List Call :=
  [.deploy ⟨sampleSource, 0⟩, .updateState ⟨sampleSource, 0⟩ .running,
    .updateState ⟨sampleSink, 0⟩ .finished, .rescale ⟨sampleSink, 0⟩ 1,
    .updateState ⟨sampleSink, 2⟩ .failed]

/-- Nothing but the end of the first sink is reported for it, so its attempt
stays, and the next one has number one. -/
theorem outlives_lateCalls :
    (∀ done, done <+: lateCalls →
      (halfFinished.runAll done).topology.currentAttempt ⟨sampleSink, 0⟩ =
        some ⟨0, .finished⟩) ∧
    ((halfFinished.runAll lateCalls).deploy ⟨sampleSink, 0⟩).2 = .ok 1 := by
  have h : halfFinished.Outlives ⟨sampleSink, 0⟩ ⟨0, .finished⟩ lateCalls :=
    outlives_runAll built_sampleGraph ofJobGraph_sampleGraph {}
      (fun _ => true) _ (by decide +kernel)
      (by simp [lateCalls, sampleSink, sampleSource])
  refine ⟨h.kept.mpr fun state hstate => ?_, h.next.1⟩
  simpa [lateCalls, sampleSink, sampleSource] using hstate

/-- The attempts of three tasks of the small job have ended, each in another
way. -/
def endedJob : JobState :=
  (start sample {} (fun _ => true)).runAll
    [.deploy ⟨sampleSource, 0⟩, .updateState ⟨sampleSource, 0⟩ .finished,
      .deploy ⟨sampleSource, 1⟩, .updateState ⟨sampleSource, 1⟩ .canceled,
      .deploy ⟨sampleSink, 0⟩, .updateState ⟨sampleSink, 0⟩ .failed]

/-- Reports that they run take all of them out of their final states. -/
theorem ended_attempts_run :
    let ids : List TaskId := [⟨sampleSource, 0⟩, ⟨sampleSource, 1⟩,
      ⟨sampleSink, 0⟩]
    let s := endedJob.runAll (ids.map (.updateState · .running))
    ids.map endedJob.topology.currentAttempt =
        [some ⟨0, .finished⟩, some ⟨0, .canceled⟩, some ⟨0, .failed⟩] ∧
      ids.map s.topology.currentAttempt =
        [some ⟨0, .running⟩, some ⟨0, .running⟩, some ⟨0, .running⟩] := by
  decide +kernel

end JobState

end ControlPlane
