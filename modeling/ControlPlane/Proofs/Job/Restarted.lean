import Mathlib
import ControlPlane.Proofs.Job.Released
import ControlPlane.Proofs.Job.Told

/-!
# A job started on a topology that has run

A new release strategy takes no task as finished, also if the topology says
so. A job that is started on a topology some of whose tasks have finished
answers like the job that has heard of them, unless a finished task reads
data that it shares with another task: such data is released by the job that
has heard, and kept by the one that was started late.
-/

namespace ControlPlane

open RegionRelease

namespace Topology

/-- A task is in a region that reads a blocking group. -/
def ReadBy (t : Topology) (g : GroupIndex) (i : TaskIndex) : Prop :=
  ∃ r, t.regionOf[i]? = some r ∧ t.ReadsBlocking r g

theorem Regioned.exists_taskIdAt_of_readBy {t : Topology} (h : t.Regioned)
    {g i : Nat} (hread : t.ReadBy g i) : ∃ id, t.taskIdAt i = some id := by
  obtain ⟨r, hr, -⟩ := hread
  exact exists_taskIdAt (h.size ▸ (Array.getElem?_eq_some_iff.mp hr).1)

/-- The tasks that have finished. -/
def finishedTasks (t : Topology) : Set TaskId :=
  {id | ∃ i, t.taskIdAt i = some id ∧ t.IsFinished i}

/-- It does not matter that tasks have finished: where a finished task is not
the only reader of a group, some reader cannot finish, having no attempt. -/
def Forgettable (t : Topology) : Prop :=
  ∀ g i j, t.ReadBy g i → t.ReadBy g j → i ≠ j → t.IsFinished i →
    ∃ k, t.ReadBy g k ∧ t.attemptAt k = none

section Attempted

variable {t t' : Topology} {i : Nat} {a : Attempt} (ha : Attempted t i a t')

include ha

theorem Attempted.readBy_iff {g j : Nat} :
    t'.ReadBy g j ↔ t.ReadBy g j := by
  rw [ReadBy, ReadBy, ha.regionOf]
  exact exists_congr fun r =>
    and_congr_right fun _ => ha.sameReaders.reads r g

/-- A task with an attempt keeps having one. -/
theorem Attempted.attemptAt_eq_none_iff {b : Attempt}
    (hi : t.attemptAt i = some b) {j : Nat} :
    t'.attemptAt j = none ↔ t.attemptAt j = none := by
  rw [ha.attemptAt]
  split
  · rename_i hj
    rw [hj, hi]
    simp
  · rfl

end Attempted

theorem Indexed.mem_finishedTasks {t : Topology} (h : t.Indexed)
    {id : TaskId} {i : Nat} (hi : t.taskIdAt i = some id) :
    id ∈ t.finishedTasks ↔ t.IsFinished i := by
  constructor
  · rintro ⟨j, hj, hfinished⟩
    rwa [← h.taskId_inj hj hi]
  · exact fun hfinished => ⟨i, hi, hfinished⟩

theorem attemptAt_ne_none {t : Topology} {i : Nat} (h : t.IsFinished i) :
    t.attemptAt i ≠ none := by
  intro hnone
  rw [isFinished_iff, hnone] at h
  cases h

end Topology

open ControlPlane.Topology

/-- A group comes free once all its readers are among the finished ones. -/
theorem RegionRelease.freed_iff {t : Topology} {finished : Set TaskId}
    {id : TaskId} {g : Nat} : Freed t finished id g ↔
      (∃ i, t.taskIdAt i = some id ∧ t.ReadBy g i) ∧
      ∀ j id', t.ReadBy g j → t.taskIdAt j = some id' → id' ∈ finished := by
  constructor
  · rintro ⟨i, k, hi, hk, -, hread, hwithin⟩
    refine ⟨⟨i, hi, k, hk, hread⟩, fun j id' ⟨m, hm, hread'⟩ hj => ?_⟩
    by_contra hnot
    exact hwithin m hread' j ⟨hm, id', hnot, hj⟩
  · rintro ⟨⟨i, hi, k, hk, hread⟩, hall⟩
    have hwithin : ∀ m, t.ReadsBlocking m g → t.Within finished m :=
      fun m hread' j ⟨hm, id', hnot, hj⟩ =>
        hnot (hall j id' ⟨m, hm, hread'⟩ hj)
    exact ⟨i, k, hi, hk, hwithin k hread, hread, hwithin⟩

namespace JobState

/-! ## Steps and answers -/

/-- A step in the life of a task. -/
inductive Step where
  | start (id : TaskId)
  | set (id : TaskId) (state : TaskState)

/-- A step that a job is told. -/
def Step.call : Step → JobState.Call
  | start id => .deploy id
  | set id state => .updateState id state

/-- A step that only the topology takes. -/
def Step.topologyCall : Step → Topology.Call
  | start id => .attachAttempt id
  | set id state => .transition id state

/-- What a job answers to reports of states, one after the other. -/
def answers (s : JobState) :
    List (TaskId × TaskState) → List (Except Error (List ReleasedGroup))
  | [] => []
  | (id, state) :: reports =>
    (s.updateState id state).2 :: answers (s.updateState id state).1 reports

/-! ## What is told of a move -/

section AfterMove

variable {finished finished' : Set TaskId} {id id' : TaskId}
  {previous state : TaskState}

theorem mem_afterMove_self : id ∈ afterMove finished id previous state ↔
    (state = .finished ∧ previous ≠ .finished) ∨
      (id ∈ finished ∧ ¬ (previous = .finished ∧ state ≠ .finished)) := by
  unfold afterMove
  split_ifs <;> simp_all

theorem mem_afterMove_of_ne (hne : id' ≠ id) :
    id' ∈ afterMove finished id previous state ↔ id' ∈ finished := by
  unfold afterMove
  split_ifs <;> simp [hne]

theorem mem_afterMove : id' ∈ afterMove finished id previous state ↔
    if id' = id then (state = .finished ∧ previous ≠ .finished) ∨
      (id ∈ finished ∧ ¬ (previous = .finished ∧ state ≠ .finished))
    else id' ∈ finished := by
  split
  · rename_i heq
    rw [heq, mem_afterMove_self]
  · rename_i hne
    exact mem_afterMove_of_ne hne

/-- Told of every move, the strategy knows what has finished. -/
theorem afterMove_finishedTasks {t t' : Topology} (h : t.Indexed) {i : Nat}
    {a : Attempt} (hi : t.taskIdAt i = some id) (ha : Attempted t i a t')
    (hprevious : t.IsFinished i ↔ previous = .finished) :
    afterMove t.finishedTasks id previous a.state = t'.finishedTasks := by
  ext id'
  rw [mem_afterMove]
  split
  · rename_i heq
    have hi' : t'.taskIdAt i = some id := by rw [ha.links.taskIdAt, hi]
    have hfinished : id ∈ t'.finishedTasks ↔ a.state = .finished := by
      constructor
      · rintro ⟨j, hj, hfinished⟩
        rw [ha.links.taskIdAt] at hj
        rwa [ha.isFinished_iff, if_pos (h.taskId_inj hj hi)] at hfinished
      · exact fun hstate =>
          ⟨i, hi', by rwa [ha.isFinished_iff, if_pos rfl]⟩
    rw [heq, hfinished, h.mem_finishedTasks hi, hprevious]
    tauto
  · rename_i hne
    refine exists_congr fun j => ?_
    rw [ha.links.taskIdAt, ha.isFinished_iff]
    refine and_congr_right fun hj => ?_
    have hji : j ≠ i := by
      rintro rfl
      exact hne (Option.some.inj (hj.symm.trans hi))
    rw [if_neg hji]

end AfterMove

/-! ## The job that has heard of everything -/

section Heard

variable {s : JobState} {kind : ReleaseKind}

theorem topology_deploy (s : JobState) (id : TaskId) :
    (s.deploy id).1.topology =
      (Topology.Call.attachAttempt id).run s.topology := by
  rw [Topology.Call.run, JobState.deploy]
  cases hattach : s.topology.attachAttempt id with
  | error e => cases s.topology.task id <;> rfl
  | ok attached =>
    obtain ⟨i, hi, hrest⟩ := bind_eq_ok_iff.mp hattach
    obtain ⟨task, htask, -⟩ := bind_eq_ok_iff.mp hrest
    rw [htask]
    dsimp only
    split
    · split <;> rfl
    · rfl

theorem topology_reportToRelease (s : JobState) (id : TaskId)
    (previous state : TaskState) :
    (s.reportToRelease id previous state).1.topology = s.topology := by
  unfold reportToRelease
  split
  · split <;> rfl
  · split
    · split <;> rfl
    · rfl

theorem topology_updateState (s : JobState) (id : TaskId)
    (state : TaskState) : (s.updateState id state).1.topology =
      (Topology.Call.transition id state).run s.topology := by
  rw [Topology.Call.run, JobState.updateState]
  cases s.topology.transition id state with
  | error e => rfl
  | ok moved =>
    obtain ⟨t', previous⟩ := moved
    have hkeep := topology_reportToRelease { s with topology := t' } id
      previous state
    dsimp only at hkeep ⊢
    split
    · rename_i heq
      rwa [heq] at hkeep
    · rename_i s1 released heq
      rw [heq] at hkeep
      dsimp only
      split
      · rw [(signalRunning_topology s1 id).1]
        exact hkeep
      · exact hkeep

theorem topology_call (s : JobState) (x : Step) :
    (x.call.run s).topology = x.topologyCall.run s.topology := by
  cases x with
  | start id => exact topology_deploy s id
  | set id state => exact topology_updateState s id state

theorem topology_runAll_call (s : JobState) (steps : List Step) :
    (s.runAll (steps.map Step.call)).topology =
      s.topology.runAll (steps.map Step.topologyCall) := by
  induction steps generalizing s with
  | nil => rfl
  | cons x steps ih =>
    rw [List.map_cons, List.map_cons]
    exact (ih (x.call.run s)).trans (by rw [topology_call]; rfl)

theorem Told.call (h : s.Told kind s.topology.finishedTasks) (x : Step) :
    (x.call.run s).Told kind (x.call.run s).topology.finishedTasks := by
  cases x with
  | start id =>
    rw [Step.call, Call.run]
    rcases h.deploy_cases id with
      ⟨e, herror, -⟩ | ⟨i, task, number, s', hok, hi, htask, ha, htold⟩
    · rwa [herror]
    · have hprevious : s.topology.IsFinished i ↔ task.state = .finished := by
        simp [IsFinished, htask]
      rw [hok]
      dsimp only
      rwa [← afterMove_finishedTasks h.indexed hi ha hprevious]
  | set id state =>
    rw [Step.call, Call.run]
    rcases h.updateState_cases id state with
      ⟨e, herror, -⟩ | ⟨i, a, s', groups, hok, hmoved⟩
    · rwa [herror]
    · have hprevious : s.topology.IsFinished i ↔ a.state = .finished := by
        simp [Topology.isFinished_iff, hmoved.attemptAt]
      rw [hok]
      dsimp only
      rw [← afterMove_finishedTasks h.indexed hmoved.taskIdAt hmoved.attempted
        hprevious]
      exact hmoved.told

theorem Told.runAll_call (h : s.Told kind s.topology.finishedTasks)
    (steps : List Step) : (s.runAll (steps.map Step.call)).Told kind
      (s.runAll (steps.map Step.call)).topology.finishedTasks := by
  induction steps generalizing s with
  | nil => exact h
  | cons x steps ih => exact ih (h.call x)

theorem finishedTasks_of_ofJobGraph {g : JobGraph} {t : Topology}
    (h : ofJobGraph g = .ok t) : t.finishedTasks = ∅ := by
  rw [Set.eq_empty_iff_forall_notMem]
  rintro id ⟨i, -, task, htask, hstate⟩
  have hattempt := unattempted_of_ofJobGraph h task
    (Array.mem_of_getElem? htask)
  rw [Task.state, hattempt] at hstate
  cases hstate

end Heard

/-! ## Where it does not matter -/

/-- What one strategy has been told more than another one makes no
difference: a reader of a group that only it knows of is alone, or waits with
one that has no attempt. -/
structure Harmless (t : Topology) (finished finished' : Set TaskId) :
    Prop where
  subset : finished' ⊆ finished
  attempted : ∀ id ∈ finished, ∀ i, t.taskIdAt i = some id →
    t.attemptAt i ≠ none
  alone : ∀ id ∈ finished, id ∉ finished' → ∀ g i j,
    t.taskIdAt i = some id → t.ReadBy g i → t.ReadBy g j → i ≠ j →
    ∃ k, t.ReadBy g k ∧ t.attemptAt k = none

section Harmless

variable {t t' : Topology} {finished finished' : Set TaskId} {id : TaskId}
  {i : Nat} {a : Attempt} {previous state : TaskState}

theorem Harmless.congr (h : Harmless t finished finished')
    (hids : t'.taskIdAt = t.taskIdAt)
    (hread : ∀ g j, t'.ReadBy g j ↔ t.ReadBy g j)
    (hnone : ∀ j, t'.attemptAt j = none ↔ t.attemptAt j = none) :
    Harmless t' finished finished' where
  subset := h.subset
  attempted id hid j hj := by
    rw [ne_eq, hnone]
    exact h.attempted id hid j (hids ▸ hj)
  alone id hmem hnot g j k hj := by
    simp only [hread, hnone]
    exact h.alone id hmem hnot g j k (hids ▸ hj)

/-- Both are told of the same moves. -/
theorem Harmless.afterMove (h : Harmless t finished finished')
    (ht : t.Indexed) (hi : t.taskIdAt i = some id)
    (hattempt : t.attemptAt i ≠ none) :
    Harmless t (afterMove finished id previous state)
      (afterMove finished' id previous state) where
  subset id' := by
    rw [mem_afterMove, mem_afterMove]
    have hid := @h.subset id
    have hid' := @h.subset id'
    split <;> tauto
  attempted id' hmem j hj := by
    by_cases hid : id' = id
    · rw [ht.taskId_inj (hid ▸ hj : t.taskIdAt j = some id) hi]
      exact hattempt
    · exact h.attempted id' ((mem_afterMove_of_ne hid).mp hmem) j hj
  alone id' hmem hnot g j k hj := by
    have hboth : id' ∈ finished ∧ id' ∉ finished' := by
      rw [mem_afterMove] at hmem hnot
      split at hmem
      · rename_i hid
        rw [if_pos hid] at hnot
        rw [hid]
        tauto
      · rename_i hid
        rw [if_neg hid] at hnot
        exact ⟨hmem, hnot⟩
    exact h.alone id' hboth.1 hboth.2 g j k hj

/-- The same groups come free. -/
theorem Harmless.freed_iff (h : Harmless t finished finished')
    (ht : t.Reachable) (hi : t.taskIdAt i = some id)
    (hattempt : t.attemptAt i ≠ none) {g : Nat} :
    Freed t (insert id finished) id g ↔
      Freed t (insert id finished') id g := by
  simp only [RegionRelease.freed_iff, Set.mem_insert_iff]
  constructor
  · rintro ⟨⟨i', hi', hread⟩, hall⟩
    refine ⟨⟨i', hi', hread⟩, fun j id' hread' hj => ?_⟩
    rcases hall j id' hread' hj with rfl | hmem
    · exact .inl rfl
    by_contra hnot
    rw [not_or] at hnot
    -- A reader that only the first strategy takes as finished.
    have hji : j ≠ i' := by
      rintro rfl
      exact hnot.1 (Option.some.inj (hj.symm.trans hi'))
    obtain ⟨k, hreadk, hnone⟩ :=
      h.alone id' hmem hnot.2 g j i' hj hread' hread hji
    obtain ⟨idk, hk⟩ := ht.regioned.exists_taskIdAt_of_readBy hreadk
    rcases hall k idk hreadk hk with rfl | hmemk
    · rw [ht.whole.wired.indexed.taskId_inj hk hi] at hnone
      exact hattempt hnone
    · exact h.attempted idk hmemk k hk hnone
  · rintro ⟨hsome, hall⟩
    exact ⟨hsome, fun j id' hread hj =>
      (hall j id' hread hj).imp_right fun hmem => h.subset hmem⟩

/-- The same groups are returned. -/
theorem Harmless.groups_eq (h : Harmless t finished finished')
    (ht : t.Reachable) (hi : t.taskIdAt i = some id)
    (hattempt : t.attemptAt i ≠ none) {kind : ReleaseKind}
    {groups groups' : List GroupIndex}
    (hg : Yields t kind finished id previous state groups)
    (hg' : Yields t kind finished' id previous state groups') :
    groups = groups' := by
  refine hg.ascending.eq_of_mem_iff hg'.ascending fun g => ?_
  rw [hg.mem_iff, hg'.mem_iff, h.freed_iff ht hi hattempt]

/-- Two jobs on one topology of which one has been told more than the other,
to no harm, give the same answers. -/
theorem answers_eq {s s' : JobState} (h : s.Told .region finished)
    (h' : s'.Told .region finished') (ht : s'.topology = s.topology)
    (hharmless : Harmless s.topology finished finished')
    (reports : List (TaskId × TaskState)) :
    s.answers reports = s'.answers reports := by
  induction reports generalizing s s' finished finished' with
  | nil => rfl
  | cons report reports ih =>
  obtain ⟨id, state⟩ := report
  have hnext : (s'.updateState id state).1.topology =
      (s.updateState id state).1.topology := by
    rw [topology_updateState, topology_updateState, ht]
  rw [answers, answers]
  rcases h.updateState_cases id state with
    ⟨e, herror, hfailed, hnone⟩ | ⟨i, a, s1, groups, hok, hmoved⟩
  · -- What the topology refuses, both refuse.
    rcases h'.updateState_cases id state with
      ⟨e', herror', hfailed', -⟩ | ⟨i, a, s1, groups, -, hmoved'⟩
    · rw [ht, hfailed, Except.error.injEq] at hfailed'
      rw [herror, herror', hfailed', ih h h' ht hharmless]
    · have hattempt := hmoved'.attemptAt
      rw [ht, hnone i (ht ▸ hmoved'.taskIdAt)] at hattempt
      cases hattempt
  · have hi := hmoved.taskIdAt
    have hattempt := hmoved.attemptAt
    rcases h'.updateState_cases id state with
      ⟨e', -, -, hnone⟩ | ⟨i', a', s1', groups', hok', hmoved'⟩
    · rw [ht] at hnone
      rw [hnone i hi] at hattempt
      cases hattempt
    · have hi' := hmoved'.taskIdAt
      have hattempt' := hmoved'.attemptAt
      rw [ht] at hi' hattempt'
      obtain rfl := h.indexed.taskId_inj hi hi'
      obtain rfl := Option.some.inj (hattempt.symm.trans hattempt')
      rw [hok, hok'] at hnext ⊢
      dsimp only at hnext ⊢
      have hattempted := hmoved.attempted
      -- The move changes no reader, so that what one job knows more stays
      -- harmless, and both release the same groups.
      have hsame : Harmless s1.topology finished finished' :=
        hharmless.congr hattempted.links.taskIdAt
          (fun _ _ => hattempted.readBy_iff)
          fun _ => hattempted.attemptAt_eq_none_iff hattempt
      have hid1 : s1.topology.taskIdAt i = some id := by
        rw [hattempted.links.taskIdAt, hi]
      have hattempt1 : s1.topology.attemptAt i ≠ none := by
        simp [hattempted.attemptAt]
      have hgroups := hsame.groups_eq hmoved.told.reachable hid1 hattempt1
        hmoved.yields (hnext ▸ hmoved'.yields)
      rw [hgroups, hnext, ih hmoved.told hmoved'.told hnext
        (hsame.afterMove hmoved.told.indexed hid1 hattempt1)]

end Harmless

/-! ## Where it matters -/

/-- A report as a step. -/
def Step.report (x : TaskId × TaskState) : Step := .set x.1 x.2

/-- The job after reports. -/
def reportAll (s : JobState) (reports : List (TaskId × TaskState)) : JobState :=
  s.runAll ((reports.map Step.report).map Step.call)

/-- The state of a task after reports, given the one before. -/
def lastState (id : TaskId) (state : TaskState)
    (reports : List (TaskId × TaskState)) : TaskState :=
  reports.foldl (fun state x => if x.1 = id then x.2 else state) state

/-- Reports after which all tasks have finished but the given one, which
runs. -/
def finishOthers (t : Topology) (id : TaskId) : List (TaskId × TaskState) :=
  (id, .running) :: ((t.tasks.toList.map (·.id)).filter (· ≠ id)).map
    (·, .finished)

theorem lastState_finished (id : TaskId) (state : TaskState)
    (ids : List TaskId) : lastState id state (ids.map (·, .finished)) =
      if id ∈ ids then .finished else state := by
  induction ids generalizing state with
  | nil => rfl
  | cons x ids ih =>
    rw [List.map_cons, lastState, List.foldl_cons]
    refine (ih _).trans ?_
    by_cases hx : x = id
    · simp [hx]
    · simp [hx, Ne.symm hx]

theorem lastState_finishOthers {t : Topology} {id id' : TaskId} {i : Nat}
    (hi : t.taskIdAt i = some id') (state : TaskState) :
    lastState id' state (finishOthers t id) =
      if id' = id then .running else .finished := by
  have hmem : id' ∈ t.tasks.toList.map (·.id) := by
    obtain ⟨task, htask, hid⟩ := Option.map_eq_some_iff.mp hi
    exact List.mem_map.mpr
      ⟨task, Array.mem_toList_iff.mpr (Array.mem_of_getElem? htask), hid⟩
  rw [finishOthers, lastState, List.foldl_cons]
  refine (lastState_finished id' _ _).trans ?_
  by_cases hid : id' = id
  · simp [hid]
  · rw [if_pos (List.mem_filter.mpr ⟨hmem, by simp [hid]⟩), if_neg hid]

/-- What reports change: the states of the tasks that have attempts. -/
structure Retold (t : Topology) (reports : List (TaskId × TaskState))
    (t' : Topology) : Prop where
  taskIdAt : t'.taskIdAt = t.taskIdAt
  readBy : ∀ g i, t'.ReadBy g i ↔ t.ReadBy g i
  attemptAt : ∀ i id, t.taskIdAt i = some id → t'.attemptAt i =
    (t.attemptAt i).map fun a =>
      { a with state := lastState id a.state reports }

/-- One report, and then the others. -/
theorem Retold.cons {t t' t'' : Topology} (ht : t.Indexed) {id : TaskId}
    {state : TaskState} (ht' : (Topology.Call.transition id state).run t = t')
    {reports : List (TaskId × TaskState)} (h : Retold t' reports t'') :
    Retold t ((id, state) :: reports) t'' := by
  rw [Topology.Call.run] at ht'
  rcases ht.transition_cases id state with
    ⟨e, herror, hnone⟩ | ⟨i, a, t₁, hok, hi, hattempt, ha⟩
  · rw [herror] at ht'
    obtain rfl : t = t' := ht'
    refine ⟨h.taskIdAt, h.readBy, fun j id' hj => ?_⟩
    refine (h.attemptAt j id' hj).trans ?_
    -- A report that is refused concerns no attempt there is.
    by_cases hid : id = id'
    · rw [hnone j (hid ▸ hj)]
      rfl
    · simp [lastState, hid]
  · rw [hok] at ht'
    obtain rfl : t₁ = t' := ht'
    refine ⟨h.taskIdAt.trans ha.links.taskIdAt,
      fun g j => (h.readBy g j).trans ha.readBy_iff, fun j id' hj => ?_⟩
    refine (h.attemptAt j id' (ha.links.taskIdAt ▸ hj)).trans ?_
    rw [ha.attemptAt]
    by_cases hji : j = i
    · subst hji
      obtain rfl := Option.some.inj (hi.symm.trans hj)
      simp [hattempt, lastState]
    · have hid : id ≠ id' := by
        rintro rfl
        exact hji (ht.taskId_inj hj hi)
      simp [hji, lastState, hid]

theorem retold_reportAll {s : JobState} (hs : s.topology.Reachable)
    (reports : List (TaskId × TaskState)) :
    Retold s.topology reports (s.reportAll reports).topology := by
  induction reports generalizing s with
  | nil =>
    refine ⟨rfl, fun _ _ => Iff.rfl, fun i id hi => ?_⟩
    rw [reportAll]
    cases h : s.topology.attemptAt i <;> simp [runAll, lastState, h]
  | cons x reports ih =>
    have hnext := topology_updateState s x.1 x.2
    have hrest := ih (s := (s.updateState x.1 x.2).1)
      (hnext ▸ hs.call (.transition x.1 x.2))
    exact .cons hs.whole.wired.indexed hnext.symm hrest

/-- A strategy that has not been told that a task has finished is not told
later, unless the task does something else. -/
theorem Told.exists_reportAll {s : JobState} {kind : ReleaseKind}
    {finished : Set TaskId} (h : s.Told kind finished) {id : TaskId}
    {i : Nat} (hi : s.topology.taskIdAt i = some id)
    (hfinished : s.topology.IsFinished i) (hid : id ∉ finished)
    {reports : List (TaskId × TaskState)}
    (hreports : ∀ x ∈ reports, x.1 = id → x.2 = .finished) :
    ∃ finished', (s.reportAll reports).Told kind finished' ∧
      id ∉ finished' := by
  induction reports generalizing s finished with
  | nil => exact ⟨finished, h, hid⟩
  | cons x reports ih =>
  obtain ⟨id', state⟩ := x
  obtain ⟨hx, hreports⟩ := List.forall_mem_cons.mp hreports
  rw [reportAll, List.map_cons, List.map_cons, JobState.runAll,
    List.foldl_cons, Step.report, Step.call, Call.run]
  rcases h.updateState_cases id' state with
    ⟨e, herror, -⟩ | ⟨j, a, s1, groups, hok, hmoved⟩
  · rw [herror]
    exact ih h hi hfinished hid hreports
  · rw [hok]
    have ha := hmoved.attempted
    refine ih hmoved.told (by rw [ha.links.taskIdAt, hi]) ?_ ?_ hreports
    · rw [ha.isFinished_iff]
      split
      · rename_i hij
        subst hij
        exact hx (Option.some.inj (hmoved.taskIdAt.symm.trans hi))
      · exact hfinished
    · by_cases heq : id = id'
      · subst heq
        obtain rfl := h.indexed.taskId_inj hmoved.taskIdAt hi
        have hprevious : a.state = .finished := by
          rw [Topology.isFinished_iff, hmoved.attemptAt] at hfinished
          exact Option.some.inj hfinished
        rw [mem_afterMove_self]
        simp [hprevious, hid]
      · rwa [mem_afterMove_of_ne heq]

theorem answers_reportAll {s s' : JobState}
    (h : ∀ reports, s.answers reports = s'.answers reports)
    (xs reports : List (TaskId × TaskState)) :
    (s.reportAll xs).answers reports = (s'.reportAll xs).answers reports := by
  induction xs generalizing s s' with
  | nil => exact h reports
  | cons x xs ih =>
    exact ih fun reports => (List.cons.inj (h (x :: reports))).2

section Differ

variable {s s' : JobState} {finished : Set TaskId} {id : TaskId} {g i j : Nat}

/-- A group is released by the last of its readers to finish. -/
theorem Told.exists_released (h : s.Told .region finished)
    (hj : s.topology.taskIdAt j = some id) {a : Attempt}
    (hattempt : s.topology.attemptAt j = some a) (ha : a.state ≠ .finished)
    (hread : s.topology.ReadBy g j)
    (hothers : ∀ k id', s.topology.ReadBy g k →
      s.topology.taskIdAt k = some id' → id' ∈ insert id finished) :
    ∃ released, (s.updateState id .finished).2 = .ok released ∧
      g ∈ released.map (·.group) := by
  rcases h.updateState_cases id .finished with
    ⟨e, -, -, hnone⟩ | ⟨j', b, s1, groups, hok, hmoved⟩
  · rw [hnone j hj] at hattempt
    cases hattempt
  obtain rfl := h.indexed.taskId_inj hmoved.taskIdAt hj
  obtain rfl := Option.some.inj (hattempt.symm.trans hmoved.attemptAt)
  have hmem := hmoved.yields.mem_iff
  have hblocking : ∀ g ∈ groups, s1.topology.IsBlocking g := by
    intro g hg
    obtain ⟨-, -, -, k, -, -, -, hreads, -⟩ := (hmem g).mp hg
    exact hreads.1
  refine ⟨_, by rw [hok], ?_⟩
  rw [map_group_describe hblocking, hmem]
  refine ⟨⟨rfl, ha⟩, rfl, freed_iff.mpr ⟨⟨j', ?_, ?_⟩, ?_⟩⟩
  · rw [hmoved.attempted.links.taskIdAt, hj]
  · exact hmoved.attempted.readBy_iff.mpr hread
  · intro k id' hk hid'
    rw [hmoved.attempted.links.taskIdAt] at hid'
    exact hothers k id' (hmoved.attempted.readBy_iff.mp hk) hid'

/-- A group is kept while the strategy does not know of a reader that it has
finished. -/
theorem Told.notMem_released (h : s.Told .region finished) {id' : TaskId}
    (hi : s.topology.taskIdAt i = some id') (hnot : id' ∉ insert id finished)
    (hread : s.topology.ReadBy g i) {released : List ReleasedGroup}
    (hok : (s.updateState id .finished).2 = .ok released) :
    g ∉ released.map (·.group) := by
  rcases h.updateState_cases id .finished with
    ⟨e, herror, -⟩ | ⟨j, b, s1, groups, hok', hmoved⟩
  · rw [herror] at hok
    cases hok
  rw [hok', Except.ok.injEq] at hok
  rw [← hok, List.mem_map]
  rintro ⟨x, hx, rfl⟩
  obtain ⟨g', hg', hgx⟩ := List.mem_filterMap.mp hx
  rw [describe_group hgx] at hread
  obtain ⟨-, -, hfreed⟩ := (hmoved.yields.mem_iff g').mp hg'
  exact hnot ((freed_iff.mp hfreed).2 i id'
    (hmoved.attempted.readBy_iff.mpr hread)
    (by rw [hmoved.attempted.links.taskIdAt, hi]))

/-- A job that has heard of all that finished releases a group once all but
one of its readers have finished, and that one finishes. -/
theorem Told.exists_released_last
    (h : s.Told .region s.topology.finishedTasks)
    (hj : s.topology.taskIdAt j = some id) (hread : s.topology.ReadBy g j)
    (hstarted : ∀ k, s.topology.ReadBy g k → s.topology.attemptAt k ≠ none) :
    ∃ released, ((s.reportAll (finishOthers s.topology id)).updateState id
        .finished).2 = .ok released ∧ g ∈ released.map (·.group) := by
  have hretold := retold_reportAll h.reachable (finishOthers s.topology id)
  obtain ⟨a, ha⟩ := Option.ne_none_iff_exists'.mp (hstarted j hread)
  have hattempt := hretold.attemptAt j id hj
  rw [ha, Option.map_some, lastState_finishOthers hj, if_pos rfl] at hattempt
  have hheard : (s.reportAll (finishOthers s.topology id)).Told .region
      (s.reportAll (finishOthers s.topology id)).topology.finishedTasks :=
    h.runAll_call _
  refine hheard.exists_released (hretold.taskIdAt ▸ hj) hattempt (by simp)
    ((hretold.readBy g j).mpr hread) fun k id' hk hid' => ?_
  have hk := (hretold.readBy g k).mp hk
  have hid' : s.topology.taskIdAt k = some id' := hretold.taskIdAt ▸ hid'
  by_cases hne : id' = id
  · exact Set.mem_insert_iff.mpr (.inl hne)
  -- The other readers have attempts, so they have finished.
  obtain ⟨b, hb⟩ := Option.ne_none_iff_exists'.mp (hstarted k hk)
  have hother := hretold.attemptAt k id' hid'
  rw [hb, Option.map_some, lastState_finishOthers hid', if_neg hne] at hother
  refine Set.mem_insert_iff.mpr (.inr ⟨k, hretold.taskIdAt ▸ hid', ?_⟩)
  rw [Topology.isFinished_iff, hother]
  rfl

/-- A job that has heard of nothing keeps a group that is read by a task that
had finished before. -/
theorem Told.notMem_released_last (h : s.Told .region ∅) {id' : TaskId}
    (hi : s.topology.taskIdAt i = some id') (hne : id' ≠ id)
    (hfinished : s.topology.IsFinished i) (hread : s.topology.ReadBy g i)
    {released : List ReleasedGroup}
    (hok : ((s.reportAll (finishOthers s.topology id)).updateState id
      .finished).2 = .ok released) : g ∉ released.map (·.group) := by
  have hretold := retold_reportAll h.reachable (finishOthers s.topology id)
  have hreports : ∀ x ∈ finishOthers s.topology id,
      x.1 = id' → x.2 = .finished := by
    rintro x hx rfl
    rcases List.mem_cons.mp hx with rfl | hx
    · exact absurd rfl hne
    · obtain ⟨id, -, rfl⟩ := List.mem_map.mp hx
      rfl
  obtain ⟨finished, hlate, hnot⟩ :=
    h.exists_reportAll hi hfinished (Set.notMem_empty id') hreports
  refine hlate.notMem_released (hretold.taskIdAt ▸ hi) ?_
    ((hretold.readBy g i).mpr hread) hok
  rw [Set.mem_insert_iff, not_or]
  exact ⟨hne, hnot⟩

/-- Where a finished task is not the only reader, all the others finish but
one. When that one finishes as well, only the job that has heard of the
first one releases the group. -/
theorem forgettable_of_answers_eq
    (h : s.Told .region s.topology.finishedTasks) (h' : s'.Told .region ∅)
    (ht : s'.topology = s.topology)
    (heq : ∀ reports, s.answers reports = s'.answers reports) :
    s.topology.Forgettable := by
  intro g i j hgi hgj hij hfinished
  by_contra hnone
  push Not at hnone
  obtain ⟨idi, hi⟩ := h.reachable.regioned.exists_taskIdAt_of_readBy hgi
  obtain ⟨idj, hj⟩ := h.reachable.regioned.exists_taskIdAt_of_readBy hgj
  have hne : idi ≠ idj := by
    rintro rfl
    exact hij (h.indexed.taskId_inj hi hj)
  obtain ⟨released, hok, hmem⟩ := h.exists_released_last hj hgj hnone
  have hsame := answers_reportAll heq (finishOthers s.topology idj)
    [(idj, .finished)]
  rw [← ht] at hi hfinished hgi
  refine h'.notMem_released_last hi hne hfinished hgi ?_ hmem
  rw [ht]
  exact (List.cons.inj hsame).1.symm.trans hok

end Differ

/-! ## A late start -/

theorem harmless_of_forgettable {t : Topology} (ht : t.Indexed)
    (h : t.Forgettable) : Harmless t t.finishedTasks ∅ where
  subset := Set.empty_subset _
  attempted _ hid _ hi :=
    attemptAt_ne_none ((ht.mem_finishedTasks hi).mp hid)
  alone _ hid _ g i j hi hgi hgj hij :=
    h g i j hgi hgj hij ((ht.mem_finishedTasks hi).mp hid)

/-- A job that is told of the steps of its tasks, and one that is started
when they have been taken, are on the same topology. They give the same
answers to all further reports iff no finished task shares what it reads with
tasks that can still finish. -/
theorem answers_start_iff {graph : JobGraph} (hgraph : graph.Built)
    {t : Topology} (ht : ofJobGraph graph = .ok t) {config : Config}
    (hconfig : config.release = .region) (isAvailable : PartitionId → Bool)
    (steps : List Step) :
    ((start t config isAvailable).runAll (steps.map Step.call)).topology =
        t.runAll (steps.map Step.topologyCall) ∧
      ((∀ reports,
        ((start t config isAvailable).runAll (steps.map Step.call)).answers
            reports =
          (start (t.runAll (steps.map Step.topologyCall)) config
            isAvailable).answers reports) ↔
        (t.runAll (steps.map Step.topologyCall)).Forgettable) := by
  have htopology := topology_runAll_call (start t config isAvailable) steps
  have hreachable : t.Reachable := .built hgraph ht
  have hstart := told_start hreachable config isAvailable
  have hempty : (start t config isAvailable).topology.finishedTasks = ∅ :=
    finishedTasks_of_ofJobGraph ht
  rw [← hempty] at hstart
  have hheard := hstart.runAll_call steps
  have hlate := told_start
    (hreachable.runAll (steps.map Step.topologyCall)) config isAvailable
  rw [hconfig] at hheard hlate
  rw [show (start t config isAvailable).topology = t from rfl] at htopology
  refine ⟨htopology, fun heq => ?_, fun hforget reports => ?_⟩
  · rw [← htopology]
    exact forgettable_of_answers_eq hheard hlate htopology.symm heq
  · refine answers_eq hheard hlate htopology.symm ?_ reports
    rw [htopology]
    exact harmless_of_forgettable hlate.indexed hforget

/-- Of the small job, the sources finish and the sinks are started. -/
def sourcesFinish : List Step :=
  [.start ⟨sampleSource, 0⟩, .set ⟨sampleSource, 0⟩ .finished,
    .start ⟨sampleSource, 1⟩, .set ⟨sampleSource, 1⟩ .finished,
    .start ⟨sampleSink, 0⟩, .start ⟨sampleSink, 1⟩]

/-- The sources read nothing, so a job started after they have finished
answers like the one that has heard of them. -/
theorem answers_start_sources :
    ((start sample {} (fun _ => true)).runAll
        (sourcesFinish.map Step.call)).answers =
      (start (sample.runAll (sourcesFinish.map Step.topologyCall)) {}
        (fun _ => true)).answers := by
  funext reports
  refine (answers_start_iff built_sampleGraph ofJobGraph_sampleGraph rfl
    (fun _ => true) sourcesFinish).2.mpr ?_ reports
  rintro g i j ⟨r, hr, hread⟩ - - hfinished
  have hregioned := (reachable_sample.runAll
    (sourcesFinish.map Step.topologyCall)).regioned
  rw [Topology.isFinished_iff] at hfinished
  have hreads := hregioned.mem_groupsRead.mpr hread
  have hsize : (sample.runAll
      (sourcesFinish.map Step.topologyCall)).regionOf.size = 4 := by
    decide +kernel
  have hlt := hsize ▸ (Array.getElem?_eq_some_iff.mp hr).1
  have hnone : ∀ i < 4, ((sample.runAll
      (sourcesFinish.map Step.topologyCall)).attemptAt i).map (·.state) =
        some .finished →
      ∀ r ∈ (sample.runAll
        (sourcesFinish.map Step.topologyCall)).regionOf[i]?,
        groupsRead (sample.runAll
          (sourcesFinish.map Step.topologyCall)) r = [] := by
    decide +kernel
  rw [hnone i hlt hfinished r hr] at hreads
  cases hreads

/-- Of the small job, the first sink has finished and the second one runs. -/
def sinkFinishes : List Step :=
  [.start ⟨sampleSink, 0⟩, .start ⟨sampleSink, 1⟩,
    .set ⟨sampleSink, 0⟩ .finished, .set ⟨sampleSink, 1⟩ .running]

/-- When the second sink finishes as well, the job that has heard of the first
one releases what both read, and the one that is started now keeps it. -/
theorem answers_start_sinks :
    ((((start sample {} (fun _ => true)).runAll
        (sinkFinishes.map Step.call)).answers
          [(⟨sampleSink, 1⟩, .finished)]).map fun answer =>
            answer.toOption.map (·.map (·.group))) = [some [0]] ∧
      (((start (sample.runAll (sinkFinishes.map Step.topologyCall)) {}
        (fun _ => true)).answers [(⟨sampleSink, 1⟩, .finished)]).map
          fun answer => answer.toOption.map (·.map (·.group))) = [some []] := by
  decide +kernel

end JobState

end ControlPlane
