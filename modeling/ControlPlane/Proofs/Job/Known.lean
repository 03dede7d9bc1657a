import Mathlib
import ControlPlane.Proofs.Checkpoint.Found
import ControlPlane.Proofs.Job.Countdowns
import ControlPlane.Proofs.Job.Failing

/-!
# Only unknown ids are not found

Everything that decides on a job looks tasks, operators, partitions and
regions up again, by ids and by positions, and reports it as an unknown id if
one is not there. Whatever has been called before, and however often the job
has grown, this only happens for ids that the caller got wrong. All positions
that are followed on the way are in range.
-/

namespace ControlPlane

namespace Topology

/-- There is a partition with the id. -/
def HasPartition (t : Topology) (id : PartitionId) : Prop :=
  ∃ p, (t.outputAt p).map (·.id) = some id

section Lookups

variable {t t' : Topology} {id : TaskId} {e : Error}

theorem Indexed.exists_partitionAt (h : t.Indexed) {id : PartitionId}
    (hid : t.HasPartition id) : ∃ p, t.partitionAt id = .ok p := by
  obtain ⟨p, hp⟩ := hid
  exact ⟨p, by simp [partitionAt, (h.partitions id p).mpr hp]⟩

theorem Regioned.exists_regionAt (h : t.Regioned) (hindexed : t.Indexed)
    (hid : t.HasTask id) : ∃ r, t.regionAt id = .ok r := by
  obtain ⟨i, hi⟩ := hid
  obtain ⟨r, hr⟩ := h.exists_regionOf (lt_of_taskIdAt hi)
  refine ⟨r, ?_⟩
  simp only [regionAt, hindexed.taskAt_eq_ok.mpr hi, bind, Except.bind, hr]
  rfl

theorem Whole.exists_sibling (h : t.Whole) (hid : t.HasTask id) :
    ∃ x, t.sibling id = .ok x := by
  obtain ⟨i, hi⟩ := hid
  have hindexed := h.wired.indexed
  have hget := Array.getElem?_eq_getElem (lt_of_taskIdAt hi)
  obtain ⟨o, ho, hoid⟩ := h.owned i id hi
  obtain ⟨pos, hpos⟩ := List.mem_iff_getElem?.mp ho
  have hindex := (h.staffed.operatorIndex id.vertex pos).mpr
    (by simp [hpos, hoid])
  simp only [sibling, hindexed.taskAt_eq_ok.mpr hi,
    (hindexed.task_eq_ok hi).mpr hget, operatorAt_eq_ok.mpr hindex,
    h.staffed.operator_eq_ok.mpr ⟨ho, hoid⟩]
  exact ⟨_, rfl⟩

/-- The state of a task there is can only not be set as it has no attempt. -/
theorem Indexed.eq_noAttempt_of_transition (h : t.Indexed)
    (hid : t.HasTask id) {state : TaskState}
    (he : t.transition id state = .error e) : e = .noAttempt id := by
  obtain ⟨i, hi⟩ := hid
  have hget := Array.getElem?_eq_getElem (lt_of_taskIdAt hi)
  unfold transition at he
  rw [h.taskAt_eq_ok.mpr hi, (h.task_eq_ok hi).mpr hget] at he
  dsimp only [bind, Except.bind] at he
  split at he
  · cases he
    rfl
  · cases he

theorem exists_rescale_of_checkGrowth {o : Operator} {outs : List JobEdge}
    {n : Nat} (he : checkGrowth o outs n = .error e) :
    ∃ defect, e = .rescale defect := by
  unfold checkGrowth at he
  split at he
  · cases he
    exact ⟨_, rfl⟩
  · split at he
    · cases he
      exact ⟨_, rfl⟩
    · cases he

/-- Tasks can only not be added beside one there is as its operator cannot
grow. -/
theorem Whole.exists_rescale_of_extendRegion (h : t.Whole)
    (hid : t.HasTask id) {n : Nat}
    (he : t.extendRegion id n = (t', .error e)) :
    ∃ defect, e = .rescale defect := by
  obtain ⟨x, hx⟩ := h.exists_sibling hid
  simp only [Topology.extendRegion, hx] at he
  split at he
  · rename_i hcheck
    cases he
    exact exists_rescale_of_checkGrowth hcheck
  · rename_i hcheck
    split at he
    · cases he
    · -- The job graph never refuses the new parallelism.
      obtain ⟨g, hset, -⟩ :=
        h.extended_grow hx (pattern_of_checkGrowth hcheck) n
      rw [hset] at he
      cases he

end Lookups

end Topology

namespace FailoverStrategy

/-- What restarts can be found for every task, and for every lost partition
there is. -/
theorem exists_tasksToRestart {t : Topology} (h : t.Reachable) {id : TaskId}
    (hid : t.HasTask id) {cause : FailureCause}
    (hlost : ∀ p ∈ cause.partition?, t.HasPartition p)
    (isAvailable : PartitionId → Bool) (x : FailoverStrategy) :
    ∃ x' ids, x.tasksToRestart t isAvailable id cause = (x', .ok ids) := by
  have hindexed := h.whole.wired.indexed
  cases x with
  | full =>
    obtain ⟨i, hi⟩ := hid
    simp only [tasksToRestart, restartAll, hindexed.taskAt_eq_ok.mpr hi]
    exact ⟨_, _, rfl⟩
  | region lost =>
    obtain ⟨origin, horigin⟩ := h.regioned.exists_regionAt hindexed hid
    cases hcause : cause.partition? with
    | none =>
      simp only [tasksToRestart, restartRegions, horigin, hcause]
      exact ⟨_, _, rfl⟩
    | some partition =>
      obtain ⟨p, hp⟩ := hindexed.exists_partitionAt (hlost partition hcause)
      simp only [tasksToRestart, restartRegions, horigin, hcause, hp]
      exact ⟨_, _, rfl⟩

end FailoverStrategy

namespace JobState

open ControlPlane.Topology

/-- The tasks and the partition that a call names exist. A scope may name
anything. -/
def Call.Known (t : Topology) : Call → Prop
  | .deploy id => t.HasTask id
  | .updateState id _ => t.HasTask id
  | .handleFailure id cause =>
    t.HasTask id ∧ ∀ p ∈ cause.partition?, t.HasPartition p
  | .planCheckpoint _ => True
  | .rescale sibling _ => t.HasTask sibling

/-- A call fails with an error. The one of a checkpoint is that for which the
topology is said to contradict itself. -/
def Call.FailsWith (s : JobState) (e : Error) : Call → Prop
  | .deploy id => (s.deploy id).2 = .error e
  | .updateState id state => (s.updateState id state).2 = .error e
  | .handleFailure id cause => (s.handleFailure id cause).2 = .error e
  | .planCheckpoint scope =>
    (s.planCheckpoint scope).2 = .error (.inconsistent e)
  | .rescale sibling additional =>
    (s.rescale sibling additional).2 = .error e

/-- Whatever the calls to a job look up is there, and whatever position they
follow is in range. -/
structure Resolves (s : JobState) : Prop where
  /-- No call with known ids says that an id is unknown. -/
  known : ∀ c : Call, c.Known s.topology →
    ∀ e, c.FailsWith s e → e.isInvariantViolation = false
  /-- The topology is never found to contradict itself. -/
  consistent : ∀ scope f,
    (s.planCheckpoint scope).2 = .error f → f.reason ≠ .inconsistent
  /-- The dense vectors of the topology. -/
  topology : s.topology.InRange
  /-- Every task has a region. -/
  regionOf : s.topology.regionOf.size = s.topology.tasks.size
  /-- The dense vectors while subtasks are added. -/
  growing : s.topology.Growable
  /-- The statuses of a checkpoint and their bits. -/
  statuses : Checkpoint.InRange s.topology
  /-- The release strategy has a view for every region. -/
  views : ∀ r, s.release = .region r →
    r.unfinished.size = s.topology.regions.size
  /-- Every task that is waited for has a countdown. -/
  countdowns : ∀ (id : TaskId) (handle : Nat),
    s.pending[id]? = some handle → handle < s.countdowns.size

section Calls

variable {s : JobState} {kind : ReleaseKind} {finished : Set TaskId}

theorem reason_of_planCheckpoint_eq_error (h : s.topology.Whole)
    {scope : Checkpoint.Scope} {f : Checkpoint.Failure}
    (hf : (s.planCheckpoint scope).2 = .error f) :
    f.reason ≠ .inconsistent := by
  unfold JobState.planCheckpoint at hf
  split at hf
  · cases hf
  · rename_i herror
    cases hf
    exact Checkpoint.reason_of_plan_eq_error h herror

/-- A call with known ids fails, if it does, for another reason. -/
theorem Told.isInvariantViolation_eq_false (h : s.Told kind finished)
    (c : Call) (hknown : c.Known s.topology) {e : Error}
    (he : c.FailsWith s e) : e.isInvariantViolation = false := by
  have hwhole := h.reachable.whole
  -- No call fails in the release strategy, so only the lookups are left.
  cases c with
  | deploy id =>
    obtain ⟨i, hi⟩ := hknown
    rcases h.deploy_cases id with
      ⟨-, -, hnot⟩ | ⟨-, -, number, s', hok, -⟩
    · exact absurd hi (hnot i)
    · rw [Call.FailsWith, hok] at he
      cases he
  | updateState id state =>
    rcases h.updateState_cases id state with
      ⟨e', herror, hmove, -⟩ | ⟨-, -, s', groups, hok, -⟩
    · rw [Call.FailsWith, herror] at he
      cases he
      rw [h.indexed.eq_noAttempt_of_transition hknown hmove]
      rfl
    · rw [Call.FailsWith, hok] at he
      cases he
  | handleFailure id cause =>
    obtain ⟨x, ids, hok⟩ := FailoverStrategy.exists_tasksToRestart h.reachable
      hknown.1 hknown.2 s.isAvailable s.failover
    rw [Call.FailsWith, JobState.handleFailure, hok] at he
    cases he
  | planCheckpoint scope =>
    exact absurd rfl (reason_of_planCheckpoint_eq_error hwhole he)
  | rescale sibling additional =>
    rcases h.rescale_cases sibling additional with
      ⟨e', herror, hextend⟩ | ⟨s', added, hok, -⟩
    · rw [Call.FailsWith, herror] at he
      cases he
      obtain ⟨defect, rfl⟩ :=
        hwhole.exists_rescale_of_extendRegion hknown hextend
      rfl
    · rw [Call.FailsWith, hok] at he
      cases he

theorem Told.resolves (h : s.Told kind finished) (htracked : s.Tracked) :
    s.Resolves where
  known c hknown _ he := h.isInvariantViolation_eq_false c hknown he
  consistent _ _ hf := reason_of_planCheckpoint_eq_error h.reachable.whole hf
  topology := h.reachable.inRange
  regionOf := h.reachable.regioned.size
  growing := h.reachable.growable
  statuses := Checkpoint.inRange_of_whole h.reachable.whole
  views r hr := by
    have htold := h.told
    rw [hr] at htold
    cases htold with
    | region hexact => exact hexact.follows.size
  countdowns id handle hid := (htracked.pending id handle hid).2

end Calls

/-- After any calls to a job, a call with known ids never says that an id is
unknown, the topology is never found to contradict itself, and every position
that is followed is in range. -/
theorem resolves_runAll {t : Topology} (ht : t.Reachable) (config : Config)
    (isAvailable : PartitionId → Bool) (calls : List Call) :
    ((start t config isAvailable).runAll calls).Resolves := by
  obtain ⟨finished, htold⟩ :=
    (told_start ht config isAvailable).runAll calls
  exact htold.resolves ((tracked_start ht config isAvailable).runAll calls)

/-- The grown job knows its new sink and a partition that is lost to it. What
the sink reports before it is deployed is turned down, but not because the
sink is unknown. -/
theorem resolves_grownJob : grownJob.Resolves ∧
    Call.Known grownJob.topology (.handleFailure ⟨sampleSink, 2⟩
      (.partition ⟨⟨⟨3⟩⟩, 1⟩ "lost")) ∧
    Call.FailsWith grownJob (.noAttempt ⟨sampleSink, 2⟩)
      (.updateState ⟨sampleSink, 2⟩ .finished) := by
  refine ⟨resolves_runAll reachable_sample {} (fun _ => true) _,
    ⟨⟨4, by decide +kernel⟩, fun p hp => ?_⟩, ?_⟩
  · cases hp
    exact ⟨1, by decide +kernel⟩
  · unfold Call.FailsWith
    decide +kernel

end JobState

end ControlPlane
