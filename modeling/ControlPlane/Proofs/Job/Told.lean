import Mathlib
import ControlPlane.Proofs.Release.Reports

/-!
# What the release strategy of a job has been told

A job tells its release strategy of the tasks that finish, of the ones that
run again and of the ones that join. None of this can fail once the topology
has accepted the change. So a call to a job fails before it changes
anything, or it succeeds and the strategy has been told.
-/

namespace ControlPlane

open ControlPlane.Topology

namespace RegionRelease

/-! ## Reports to a strategy -/

section Exact

variable {w : Watch} {finished : Set TaskId}

/-- The release state does not look at attempts. -/
theorem Watch.Exact.attempted (h : w.Exact finished) {t : Topology}
    (ht : t.Reachable) {i : TaskIndex} {a : Attempt}
    (ha : Attempted w.topology i a t) :
    (⟨t, w.release⟩ : Watch).Exact finished where
  reachable := ht
  hasTask id hid := by
    rw [HasTask, ha.links.taskIdAt]
    exact h.hasTask id hid
  follows := by
    refine h.follows.congr ha.sameReaders.withFinished fun k j => ?_
    rw [ht.regioned.waiting_withFinished,
      h.reachable.regioned.waiting_withFinished, Outside, Outside,
      ha.regionOf, ha.links.taskIdAt]
  ordered := h.ordered
  mem_readers g := (h.mem_readers g).trans
    (exists_congr fun k => (ha.sameReaders.reads k g).symm)

/-- The groups that come free are listed in ascending order. -/
theorem pairwise_taskFinished {r r' : RegionRelease} {t : Topology}
    (hr : t.Regioned) {id : TaskId} {groups : List GroupIndex}
    (hok : r.taskFinished t id = .ok (r', groups)) :
    groups.Pairwise (· < ·) := by
  obtain ⟨⟨i, k⟩, hlocate, -⟩ := bind_eq_ok_iff.mp hok
  rw [taskFinished_eq hlocate] at hok
  split at hok
  · cases hok
    refine List.Pairwise.filter _ ?_
    unfold groupsRead
    cases hk : t.regions[k]? with
    | none => exact .nil
    | some region => exact hr.blockingGroups_ascending k region hk
  · cases hok
    exact .nil

end Exact

end RegionRelease

namespace ReleaseStrategy

open RegionRelease

/-- What a strategy of a kind remembers once it has been told of just the
given tasks that they have finished. -/
inductive Told (t : Topology) (finished : Set TaskId) :
    ReleaseKind → ReleaseStrategy → Prop where
  | region {r : RegionRelease} (h : (⟨t, r⟩ : Watch).Exact finished) :
      Told t finished .region (.region r)
  | never : Told t finished .never .never

theorem told_start {t : Topology} (ht : t.Reachable) (kind : ReleaseKind) :
    Told t ∅ kind (.start kind t) := by
  cases kind with
  | region => exact .region (exact_start ht)
  | never => exact .never

section Told

variable {t t' : Topology} {finished : Set TaskId} {kind : ReleaseKind}
  {x : ReleaseStrategy} {id : TaskId}

theorem Told.attempted (h : Told t finished kind x) (ht : t'.Reachable)
    {i : TaskIndex} {a : Attempt} (ha : Attempted t i a t') :
    Told t' finished kind x := by
  cases h with
  | region h => exact .region (h.attempted ht ha)
  | never => exact .never

theorem Told.taskReopened (h : Told t finished kind x) (hid : t.HasTask id) :
    ∃ x', x.taskReopened t id = .ok x' ∧ Told t (finished \ {id}) kind x' := by
  cases h with
  | region h =>
    obtain ⟨r, hok, hexact⟩ := h.taskReopened hid
    refine ⟨.region r, ?_, .region hexact⟩
    rw [ReleaseStrategy.taskReopened, hok]
    rfl
  | never => exact ⟨.never, rfl, .never⟩

theorem Told.taskFinished (h : Told t finished kind x) (hid : t.HasTask id) :
    ∃ x' groups, x.taskFinished t id = .ok (x', groups) ∧
      Told t (insert id finished) kind x' ∧ groups.Pairwise (· < ·) ∧
      ∀ g, g ∈ groups ↔
        kind = .region ∧ Freed t (insert id finished) id g := by
  cases h with
  | region h =>
    obtain ⟨r, groups, hok, hexact, -, hmem⟩ := h.taskFinished hid
    refine ⟨.region r, groups, ?_, .region hexact,
      pairwise_taskFinished h.reachable.regioned hok, fun g => ?_⟩
    · rw [ReleaseStrategy.taskFinished, hok]
      rfl
    · rw [hmem, eq_self, true_and]
  | never => exact ⟨.never, [], rfl, .never, .nil, by simp⟩

theorem Told.tasksAdded (h : Told t finished kind x) (ht : t'.Reachable)
    {o : Operator} {i n : Nat} (hi : t.taskIdAt i = some id)
    (hext : Extended t o i n t') : ∃ x', x.tasksAdded t' id
        ((List.range n).map fun k => ⟨o.id, o.parallelism + k⟩) =
        (x', .ok ()) ∧ Told t' finished kind x' := by
  cases h with
  | region h =>
    obtain ⟨r, hadded, hexact⟩ := h.tasksAdded ht hi hext
    refine ⟨.region r, ?_, .region hexact⟩
    rw [ReleaseStrategy.tasksAdded, hadded]
  | never => exact ⟨.never, rfl, .never⟩

theorem Told.tasksAdded_nil (h : Told t finished kind x)
    (hid : t.HasTask id) : x.tasksAdded t id [] = (x, .ok ()) := by
  cases h with
  | region h => rw [ReleaseStrategy.tasksAdded, h.tasksAdded_nil hid]
  | never => rfl

end Told

end ReleaseStrategy

namespace JobState

open RegionRelease ReleaseStrategy

/-! ## Calls -/

/-- The topology is reachable, and the release strategy has been told of just
the given tasks that they have finished. -/
structure Told (s : JobState) (kind : ReleaseKind) (finished : Set TaskId) :
    Prop where
  reachable : s.topology.Reachable
  told : ReleaseStrategy.Told s.topology finished kind s.release

/-- What is told of a task that goes from one state to another: that it has
finished, or that it runs again. -/
def afterMove (finished : Set TaskId) (id : TaskId)
    (previous state : TaskState) : Set TaskId :=
  if state = .finished ∧ previous ≠ .finished then insert id finished
  else if previous = .finished ∧ state ≠ .finished then finished \ {id}
  else finished

theorem told_start {t : Topology} (ht : t.Reachable) (config : Config)
    (isAvailable : PartitionId → Bool) :
    (start t config isAvailable).Told config.release ∅ :=
  ⟨ht, ReleaseStrategy.told_start ht config.release⟩

section Calls

variable {s : JobState} {kind : ReleaseKind} {finished : Set TaskId}

theorem Told.indexed (h : s.Told kind finished) : s.topology.Indexed :=
  h.reachable.whole.wired.indexed

/-- A deployment fails and changes nothing, because there is no such task, or
there is a new attempt, and a task that had finished runs again. -/
theorem Told.deploy_cases (h : s.Told kind finished) (id : TaskId) :
    (∃ e, s.deploy id = (s, .error e) ∧ ∀ i, s.topology.taskIdAt i ≠ some id) ∨
      ∃ i task number s', s.deploy id = (s', .ok number) ∧
        s.topology.taskIdAt i = some id ∧
        s.topology.tasks[i]? = some task ∧
        Attempted s.topology i ⟨number, .created⟩ s'.topology ∧
        s'.Told kind (afterMove finished id task.state .created) := by
  rcases JobState.deploy_cases h.reachable id with
    herror | ⟨i, task, number, t', hdeployed⟩
  · exact .inl herror
  have hi := hdeployed.taskIdAt
  have ha := hdeployed.attempted
  have htold := h.told.attempted hdeployed.reachable ha
  by_cases hstate : task.state = .finished
  · have hid : t'.HasTask id := ⟨i, by rw [ha.links.taskIdAt, hi]⟩
    obtain ⟨x, hx, htold'⟩ := htold.taskReopened hid
    refine .inr ⟨i, task, number, _, hdeployed.reopened hstate x hx, hi,
      hdeployed.getElem?, ha, hdeployed.reachable, ?_⟩
    simpa [afterMove, hstate] using htold'
  · refine .inr ⟨i, task, number, _, hdeployed.unreported hstate, hi,
      hdeployed.getElem?, ha, hdeployed.reachable, ?_⟩
    simpa [afterMove, hstate] using htold

/-- The groups that come free when a task goes from one state to another, if
the strategy releases any. -/
structure Yields (t : Topology) (kind : ReleaseKind) (finished : Set TaskId)
    (id : TaskId) (previous state : TaskState) (groups : List GroupIndex) :
    Prop where
  ascending : groups.Pairwise (· < ·)
  mem_iff : ∀ g, g ∈ groups ↔ (state = .finished ∧ previous ≠ .finished) ∧
    kind = .region ∧ Freed t (insert id finished) id g

theorem yields_nil {t : Topology} {id : TaskId} {previous state : TaskState}
    (h : ¬ (state = .finished ∧ previous ≠ .finished)) :
    Yields t kind finished id previous state [] :=
  ⟨.nil, fun g => by simp [h]⟩

/-- A report that the topology has accepted reaches the release strategy. -/
theorem Told.exists_reportToRelease (h : s.Told kind finished) {id : TaskId}
    (hid : s.topology.HasTask id) (previous state : TaskState) :
    ∃ s' groups, s.reportToRelease id previous state =
        (s', .ok (groups.filterMap (describe s.topology))) ∧
      s'.topology = s.topology ∧
      s'.Told kind (afterMove finished id previous state) ∧
      Yields s.topology kind finished id previous state groups := by
  unfold reportToRelease afterMove
  split
  · rename_i hnow
    obtain ⟨x', groups, hok, htold, hascending, hmem⟩ :=
      h.told.taskFinished hid
    rw [hok]
    exact ⟨_, groups, rfl, rfl, ⟨h.reachable, htold⟩, hascending,
      fun g => (hmem g).trans (and_iff_right hnow).symm⟩
  · rename_i hnot
    split
    · obtain ⟨x', hok, htold⟩ := h.told.taskReopened hid
      rw [hok]
      exact ⟨_, [], rfl, rfl, ⟨h.reachable, htold⟩, yields_nil hnot⟩
    · exact ⟨s, [], rfl, rfl, h, yields_nil hnot⟩

/-- What a successful report that a task has moved amounts to. -/
structure Moved (s : JobState) (kind : ReleaseKind) (finished : Set TaskId)
    (id : TaskId) (state : TaskState) (i : TaskIndex) (a : Attempt)
    (s' : JobState) (groups : List GroupIndex) : Prop where
  taskIdAt : s.topology.taskIdAt i = some id
  attemptAt : s.topology.attemptAt i = some a
  attempted : Attempted s.topology i { a with state } s'.topology
  told : s'.Told kind (afterMove finished id a.state state)
  yields : Yields s'.topology kind finished id a.state state groups

/-- A report of a state fails and changes nothing, because the task has no
attempt, or the current attempt is in that state, and the groups are returned
that come free. -/
theorem Told.updateState_cases (h : s.Told kind finished) (id : TaskId)
    (state : TaskState) :
    (∃ e, s.updateState id state = (s, .error e) ∧
        s.topology.transition id state = .error e ∧
        ∀ i, s.topology.taskIdAt i = some id →
          s.topology.attemptAt i = none) ∨
      ∃ i a s' groups, s.updateState id state =
          (s', .ok (groups.filterMap (describe s'.topology))) ∧
        s.Moved kind finished id state i a s' groups := by
  rcases JobState.updateState_cases h.reachable id state with
    hfailed | ⟨i, a, t', hmoved⟩
  · exact .inl hfailed
  have hi := hmoved.taskIdAt
  have ha := hmoved.attempted
  have htransitioned : ({ s with topology := t' } : JobState).Told kind
      finished :=
    ⟨hmoved.reachable, h.told.attempted hmoved.reachable ha⟩
  have hid : t'.HasTask id := ⟨i, by rw [ha.links.taskIdAt, hi]⟩
  obtain ⟨s1, groups, hreport, htopology, htold, hyields⟩ :=
    htransitioned.exists_reportToRelease hid a.state state
  obtain ⟨s', hok, hkept, hkept'⟩ := hmoved.reported _ _ hreport
  obtain rfl : s'.topology = t' := hkept.trans htopology
  refine .inr ⟨i, a, s', groups, hok, hi, hmoved.attemptAt, ha,
    ⟨hmoved.reachable, ?_⟩, hyields⟩
  rw [hkept', hkept]
  exact htold.told

/-- Growing a job fails and changes nothing, or the added tasks have not
finished. -/
theorem Told.rescale_cases (h : s.Told kind finished) (sibling : TaskId)
    (additional : Nat) :
    (∃ e, s.rescale sibling additional = (s, .error e) ∧
        s.topology.extendRegion sibling additional =
          (s.topology, .error e)) ∨
      ∃ s' added, s.rescale sibling additional = (s', .ok added) ∧
        s'.Told kind finished := by
  rcases JobState.rescale_cases h.reachable sibling additional with herror |
    ⟨hid, hrecords⟩ | ⟨o, i, t', hi, hreachable, hext, hrecords⟩
  · exact .inl herror
  · obtain ⟨s', handle, hok, htopology, hrelease⟩ :=
      hrecords _ (h.told.tasksAdded_nil hid)
    refine .inr ⟨s', _, hok, htopology ▸ h.reachable, ?_⟩
    rw [htopology, hrelease]
    exact h.told
  · obtain ⟨x, hx, htold⟩ := h.told.tasksAdded hreachable hi hext
    obtain ⟨s', handle, hok, rfl, rfl⟩ := hrecords x hx
    exact .inr ⟨s', _, hok, hreachable, htold⟩

end Calls

end JobState

end ControlPlane
