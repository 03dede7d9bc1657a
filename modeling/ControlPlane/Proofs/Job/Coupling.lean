import Mathlib
import ControlPlane.Job.State
import ControlPlane.Proofs.Release

/-!
# The release state is coupled to the topology

Calls to a job change the attempts and the size of its topology, and the
release state with them. After any calls, failed ones included, the release
state says of every task whether it has finished as the topology does.
-/

namespace ControlPlane

namespace Topology

/-! ## What an attempt changes -/

/-- No task changes its region, and no region what it reads. -/
structure Steady (t t' : Topology) : Prop where
  regionOf : ∀ i r : Nat, t.regionOf[i]? = some r → t'.regionOf[i]? = some r
  reads : ∀ r g, t'.Reads r g ↔ t.Reads r g

theorem Steady.refl (t : Topology) : Steady t t :=
  ⟨fun _ _ h => h, fun _ _ => Iff.rfl⟩

theorem Steady.trans {t t' t'' : Topology} (h : Steady t t')
    (h' : Steady t' t'') : Steady t t'' :=
  ⟨fun i r hr => h'.regionOf i r (h.regionOf i r hr),
    fun r g => (h'.reads r g).trans (h.reads r g)⟩

section Attempted

variable {t t' : Topology} {i : Nat} {a : Attempt} (ha : Attempted t i a t')

include ha

theorem Attempted.reads_iff {r g : Nat} : t'.Reads r g ↔ t.Reads r g := by
  rw [Reads, Reads, ha.regionOf, ha.links.consumedBy]

theorem Attempted.steady : Steady t t' :=
  ⟨fun _ _ hr => ha.regionOf ▸ hr, fun _ _ => ha.reads_iff⟩

theorem Attempted.sameReaders : SameReaders t t' where
  size := by rw [ha.regions]
  reads r g := by
    rw [ReadsBlocking, ReadsBlocking, ha.reads_iff,
      IsBlocking.congr (congrFun ha.links.exchangeAt g)]

theorem Attempted.taskAt_eq_ok (ht : t'.Reachable) {id : TaskId}
    (hi : t.taskIdAt i = some id) : t'.taskAt id = .ok i := by
  rw [ht.whole.wired.indexed.taskAt_eq_ok, ha.links.taskIdAt]
  exact hi

theorem Attempted.isFinished_iff {j : Nat} : t'.IsFinished j ↔
    if j = i then a.state = .finished else t.IsFinished j := by
  rw [Topology.isFinished_iff, ha.attemptAt]
  split
  · simp
  · rw [Topology.isFinished_iff]

/-- Of the tasks waiting, only the attempted one may change. -/
theorem Attempted.waiting_iff {m j : Nat} (hj : j ≠ i) :
    t'.Waiting m j ↔ t.Waiting m j := by
  rw [Waiting, Waiting, ha.regionOf, ha.isFinished_iff, if_neg hj]

theorem Attempted.waiting_self {m : Nat} : t'.Waiting m i ↔
    t.regionOf[i]? = some m ∧ a.state ≠ .finished := by
  rw [Waiting, ha.regionOf, ha.isFinished_iff, if_pos rfl]

end Attempted

/-! ## What an extension changes -/

section Extended

variable {t t' : Topology} {o : Operator} {sibling n r : Nat}
  (hext : Extended t o sibling n t') (h : t.Regioned)
  (hr : t.regionOf[sibling]? = some r)

include hext

theorem Extended.isFinished_iff {j : Nat} :
    t'.IsFinished j ↔ t.IsFinished j := by
  rw [Topology.isFinished_iff, Topology.isFinished_iff, hext.attemptAt]
  split
  · rfl
  · rename_i hj
    have hnone : t.attemptAt j = none := by
      rw [Topology.attemptAt, Array.getElem?_eq_none (Nat.not_lt.mp hj)]
      rfl
    simp [hnone]

/-- The tasks there were are found where they were. -/
theorem Extended.taskAt_of_taskIdAt {id : TaskId} {i : Nat}
    (hi : t.taskIdAt i = some id) : t'.taskAt id = .ok i := by
  rw [hext.whole.wired.indexed.taskAt_eq_ok, hext.taskIdAt,
    if_pos (lt_of_taskIdAt hi)]
  exact hi

include h hr

theorem Extended.steady : Steady t t' where
  regionOf i s hs := by
    have hlt := h.size ▸ (Array.getElem?_eq_some_iff.mp hs).1
    rw [hext.regionOf_getElem? h hr, if_pos hlt]
    exact hs
  reads _ _ := hext.reads_iff h hr

theorem Extended.sameReaders : SameReaders t t' where
  size := by rw [hext.regions, Array.size_modify]
  reads s g := by
    rw [ReadsBlocking, ReadsBlocking, hext.reads_iff h hr,
      IsBlocking.congr (hext.exchangeAt g)]

/-- The tasks of a region with some property, if all added tasks have it. -/
theorem Extended.member_iff {P P' : TaskIndex → Prop}
    (hold : ∀ i < t.tasks.size, P' i ↔ P i)
    (hnew : ∀ i, t.tasks.size ≤ i → i < t.tasks.size + n → P' i) {m j : Nat} :
    (t'.regionOf[j]? = some m ∧ P' j) ↔ (t.regionOf[j]? = some m ∧ P j) ∨
      (m = r ∧ j ∈ (List.range n).map (t.tasks.size + ·)) := by
  rw [← List.range'_eq_map_range, List.mem_range'_1,
    hext.regionOf_getElem? h hr]
  by_cases hlt : j < t.tasks.size
  · rw [if_pos hlt, hold j hlt]
    simp [Nat.not_le.mpr hlt]
  · have hle := Nat.not_lt.mp hlt
    have hnone : t.regionOf[j]? = none := by
      rw [Array.getElem?_eq_none_iff, h.size]
      exact hle
    rw [if_neg hlt, hnone]
    by_cases hn : j < t.tasks.size + n
    · simp [hn, hle, hnew j hle hn, eq_comm]
    · simp [hn]

/-- The added tasks wait in the region of the sibling. -/
theorem Extended.waiting_iff {m j : Nat} : t'.Waiting m j ↔
    t.Waiting m j ∨ (m = r ∧ j ∈ (List.range n).map (t.tasks.size + ·)) := by
  have hold : ∀ i < t.tasks.size, ¬ t'.IsFinished i ↔ ¬ t.IsFinished i :=
    fun i _ => not_congr hext.isFinished_iff
  have hnew : ∀ i, t.tasks.size ≤ i → i < t.tasks.size + n →
      ¬ t'.IsFinished i := by
    intro i hi _
    rw [hext.isFinished_iff]
    rintro ⟨task, htask, -⟩
    exact Nat.not_lt.mpr hi (Array.getElem?_eq_some_iff.mp htask).1
  exact hext.member_iff h hr hold hnew

end Extended

/-! ## What a call to a topology does -/

/-- A task there is can be given an attempt. -/
theorem Indexed.exists_attachAttempt {t : Topology} (h : t.Indexed)
    {id : TaskId} {i : Nat} (hi : t.taskIdAt i = some id) :
    ∃ x, t.attachAttempt id = .ok x := by
  have hget := Array.getElem?_eq_getElem (lt_of_taskIdAt hi)
  rw [attachAttempt, h.taskAt_eq_ok.mpr hi, (h.task_eq_ok hi).mpr hget]
  exact ⟨_, rfl⟩

/-- A state can be set iff the task has an attempt. -/
theorem Indexed.transition_cases {t : Topology} (h : t.Indexed) (id : TaskId)
    (state : TaskState) :
    (∃ e, t.transition id state = .error e ∧
        ∀ i, t.taskIdAt i = some id → t.attemptAt i = none) ∨
      ∃ i a t', t.transition id state = .ok (t', a.state) ∧
        t.taskIdAt i = some id ∧ t.attemptAt i = some a ∧
        Attempted t i { a with state } t' := by
  cases htransition : t.transition id state with
  | ok moved =>
    obtain ⟨t', previous⟩ := moved
    obtain ⟨i, a, hi, hattempt, rfl, ha⟩ :=
      attempted_of_transition h htransition
    exact .inr ⟨i, a, t', rfl, hi, hattempt, ha⟩
  | error e =>
    refine .inl ⟨e, rfl, fun i hi => ?_⟩
    obtain ⟨task, hget, -⟩ := Option.map_eq_some_iff.mp hi
    have htask := (h.task_eq_ok hi).mpr hget
    unfold transition at htransition
    rw [h.taskAt_eq_ok.mpr hi, htask] at htransition
    cases hattempt : task.attempt with
    | none => simp [attemptAt, hget, hattempt]
    | some a =>
      simp only [bind, Except.bind, hattempt] at htransition
      cases htransition

/-- A topology cannot grow, or no tasks are asked for, or tasks are added
beside one there is. -/
theorem Reachable.extendRegion_cases {t : Topology} (h : t.Reachable)
    (sibling : TaskId) (n : Nat) :
    (∃ e, t.extendRegion sibling n = (t, .error e)) ∨
      ((∃ i, t.taskIdAt i = some sibling) ∧
        t.extendRegion sibling n = (t, .ok [])) ∨
      ∃ o i t', t.taskIdAt i = some sibling ∧ t'.Reachable ∧
        Extended t o i n t' ∧ t.extendRegion sibling n = (t',
          .ok ((List.range n).map fun k => ⟨o.id, o.parallelism + k⟩)) := by
  have hreachable := h.call (.extendRegion sibling n)
  rw [Topology.Call.run] at hreachable
  have hcases := h.whole.extendRegion_cases sibling n
  have hknown : ∀ ids, (t.extendRegion sibling n).2 = .ok ids →
      ∃ i, t.taskIdAt i = some sibling := by
    intro ids hok
    unfold extendRegion at hok
    cases hs : t.sibling sibling with
    | error e =>
      rw [hs] at hok
      cases hok
    | ok x =>
      obtain ⟨i, hi, -⟩ := bind_eq_ok_iff.mp hs
      exact ⟨i, h.whole.wired.indexed.taskAt_eq_ok.mp hi⟩
  cases hextend : t.extendRegion sibling n with
  | mk t' result =>
  rw [hextend] at hcases hreachable hknown
  rcases hcases with ⟨rfl, hnil⟩ | ⟨o, i, -, -, hi, rfl, hext⟩
  · cases result with
    | error e => exact .inl ⟨e, rfl⟩
    | ok ids =>
      obtain rfl := hnil ids rfl
      exact .inr (.inl ⟨hknown [] rfl, rfl⟩)
  · exact .inr (.inr ⟨o, i, t', hi, hreachable, hext, rfl⟩)

end Topology

namespace JobState

open ControlPlane.Topology

/-! ## Calls -/

/-- A call to a job. -/
inductive Call where
  | deploy (id : TaskId)
  | updateState (id : TaskId) (state : TaskState)
  | handleFailure (id : TaskId) (cause : FailureCause)
  | planCheckpoint (scope : Checkpoint.Scope)
  | rescale (sibling : TaskId) (additional : Nat)

/-- The state after a call, also if it fails. -/
def Call.run (s : JobState) : Call → JobState
  | deploy id => (s.deploy id).1
  | updateState id state => (s.updateState id state).1
  | handleFailure id cause => (s.handleFailure id cause).1
  | planCheckpoint scope => (s.planCheckpoint scope).1
  | rescale sibling additional => (s.rescale sibling additional).1

/-- The state after some calls. -/
def runAll (s : JobState) (calls : List Call) : JobState :=
  calls.foldl Call.run s

/-! ## What a call does -/

section Inversion

variable {s : JobState}

/-- What a deployment does: the task gets an attempt, and if it had finished,
the release strategy is told that it runs again. -/
structure Deployed (s : JobState) (id : TaskId) (i : TaskIndex) (task : Task)
    (number : Nat) (t' : Topology) : Prop where
  taskIdAt : s.topology.taskIdAt i = some id
  getElem? : s.topology.tasks[i]? = some task
  reachable : t'.Reachable
  attempted : Attempted s.topology i ⟨number, .created⟩ t'
  reopened : task.state = .finished →
    ∀ x, s.release.taskReopened t' id = .ok x →
      s.deploy id = ({ s with topology := t', release := x }, .ok number)
  unreported : task.state ≠ .finished →
    s.deploy id = ({ s with topology := t' }, .ok number)

/-- A deployment fails before it changes anything, because there is no such
task, or there is an attempt. -/
theorem deploy_cases (h : s.topology.Reachable) (id : TaskId) :
    (∃ e, s.deploy id = (s, .error e) ∧ ∀ i, s.topology.taskIdAt i ≠ some id) ∨
      ∃ i task number t', s.Deployed id i task number t' := by
  have hindexed := h.whole.wired.indexed
  cases htask : s.topology.task id with
  | error e =>
    refine .inl ⟨e, by rw [JobState.deploy, htask], fun i hi => ?_⟩
    have hget := Array.getElem?_eq_getElem (lt_of_taskIdAt hi)
    rw [(hindexed.task_eq_ok hi).mpr hget] at htask
    cases htask
  | ok task =>
  cases hattach : s.topology.attachAttempt id with
  | error e =>
    refine .inl ⟨e, by rw [JobState.deploy, htask, hattach], fun i hi => ?_⟩
    obtain ⟨x, hok⟩ := hindexed.exists_attachAttempt hi
    cases hattach.symm.trans hok
  | ok attached =>
  obtain ⟨t', number⟩ := attached
  obtain ⟨i, hi, ha⟩ := attempted_of_attachAttempt hindexed hattach
  have hreachable : t'.Reachable := by
    have hcall := h.call (.attachAttempt id)
    rwa [Topology.Call.run, hattach] at hcall
  refine .inr ⟨i, task, number, t', hi, (hindexed.task_eq_ok hi).mp htask,
    hreachable, ha, fun hstate x hx => ?_, fun hstate => ?_⟩
  · simp only [JobState.deploy, htask, hattach, if_pos hstate, hx]
  · simp only [JobState.deploy, htask, hattach, if_neg hstate]

/-- What a report of a state does: the attempt is in that state, and the
release strategy is told. A countdown may be signalled after that. -/
structure Transitioned (s : JobState) (id : TaskId) (state : TaskState)
    (i : TaskIndex) (a : Attempt) (t' : Topology) : Prop where
  taskIdAt : s.topology.taskIdAt i = some id
  attemptAt : s.topology.attemptAt i = some a
  reachable : t'.Reachable
  attempted : Attempted s.topology i { a with state } t'
  reported : ∀ s1 released,
    ({ s with topology := t' } : JobState).reportToRelease id a.state state =
      (s1, .ok released) →
    ∃ s', s.updateState id state = (s', .ok released) ∧
      s'.topology = s1.topology ∧ s'.release = s1.release

theorem signalRunning_topology (s : JobState) (id : TaskId) :
    (s.signalRunning id).topology = s.topology ∧
      (s.signalRunning id).release = s.release := by
  unfold signalRunning
  split <;> exact ⟨rfl, rfl⟩

/-- A report of a state fails before it changes anything, as the task has no
attempt, or the attempt is in that state. -/
theorem updateState_cases (h : s.topology.Reachable) (id : TaskId)
    (state : TaskState) :
    (∃ e, s.updateState id state = (s, .error e) ∧
        s.topology.transition id state = .error e ∧
        ∀ i, s.topology.taskIdAt i = some id →
          s.topology.attemptAt i = none) ∨
      ∃ i a t', s.Transitioned id state i a t' := by
  rcases h.whole.wired.indexed.transition_cases id state with
    ⟨e, herror, hnone⟩ | ⟨i, a, t', hok, hi, hattempt, ha⟩
  · exact .inl ⟨e, by rw [JobState.updateState, herror], herror, hnone⟩
  have hreachable : t'.Reachable := by
    have hcall := h.call (.transition id state)
    rwa [Topology.Call.run, hok] at hcall
  refine .inr ⟨i, a, t', hi, hattempt, hreachable, ha,
    fun s1 released hreport => ?_⟩
  simp only [JobState.updateState, hok, hreport]
  split
  · exact ⟨_, rfl, signalRunning_topology s1 id⟩
  · exact ⟨_, rfl, rfl, rfl⟩

/-- The release strategy is told of added tasks. -/
def Records (s : JobState) (sibling : TaskId) (additional : Nat)
    (t' : Topology) (ids : List TaskId) : Prop :=
  ∀ x, s.release.tasksAdded t' sibling ids = (x, .ok ()) →
    ∃ s' handle, s.rescale sibling additional = (s', .ok (ids, handle)) ∧
      s'.topology = t' ∧ s'.release = x

theorem records_of_extendRegion {sibling : TaskId} {additional : Nat}
    {t' : Topology} {ids : List TaskId}
    (h : s.topology.extendRegion sibling additional = (t', .ok ids)) :
    s.Records sibling additional t' ids := by
  intro x hx
  simp only [JobState.rescale, h, hx]
  exact ⟨_, _, rfl, rfl, rfl⟩

/-- Growing a job fails before it changes anything, or there is nothing to
add, or tasks are added. -/
theorem rescale_cases (h : s.topology.Reachable) (sibling : TaskId)
    (additional : Nat) :
    (∃ e, s.rescale sibling additional = (s, .error e) ∧
        s.topology.extendRegion sibling additional =
          (s.topology, .error e)) ∨
      ((∃ i, s.topology.taskIdAt i = some sibling) ∧
        s.Records sibling additional s.topology []) ∨
      ∃ o i t', s.topology.taskIdAt i = some sibling ∧ t'.Reachable ∧
        Extended s.topology o i additional t' ∧
        s.Records sibling additional t'
          ((List.range additional).map fun k => ⟨o.id, o.parallelism + k⟩) := by
  rcases h.extendRegion_cases sibling additional with ⟨e, hextend⟩ |
    ⟨hknown, hextend⟩ | ⟨o, i, t', hi, hreachable, hext, hextend⟩
  · exact .inl ⟨e, by rw [JobState.rescale, hextend], hextend⟩
  · exact .inr (.inl ⟨hknown, records_of_extendRegion hextend⟩)
  · exact .inr (.inr ⟨o, i, t', hi, hreachable, hext,
      records_of_extendRegion hextend⟩)

end Inversion

/-! ## The coupling -/

/-- The topology is reachable, and the release state follows it. -/
structure Coupled (s : JobState) : Prop where
  reachable : s.topology.Reachable
  follows : ∃ r, s.release = .region r ∧ r.Follows s.topology

theorem coupled_start {g : JobGraph} (hg : g.Built) {t : Topology}
    (ht : ofJobGraph g = .ok t) {config : Config}
    (hconfig : config.release = .region) (isAvailable : PartitionId → Bool) :
    (start t config isAvailable).Coupled where
  reachable := .built hg ht
  follows := by
    refine ⟨.ofTopology t, ?_, RegionRelease.follows_ofTopology
      (Reachable.built hg ht).regioned ?_⟩
    · rw [start, hconfig]
      rfl
    · rintro i ⟨task, htask, hstate⟩
      have hattempt := unattempted_of_ofJobGraph ht task
        (Array.mem_of_getElem? htask)
      rw [Task.state, hattempt] at hstate
      cases hstate

/-! ## Attempts and release -/

section Attempts

variable {t t' : Topology} {r : RegionRelease} {i k : Nat} {a : Attempt}
  {id : TaskId}

/-- An attempt in a state that is finished iff the last one was is not
reported. -/
theorem follows_of_attempted (h : r.Follows t) (ha : Attempted t i a t')
    (hsame : a.state = .finished ↔ t.IsFinished i) : r.Follows t' := by
  refine h.congr ha.sameReaders fun m j => ?_
  by_cases hj : j = i
  · rw [hj, ha.waiting_self, Waiting, ne_eq, hsame]
  · exact ha.waiting_iff hj

/-- The report that a task runs again. -/
theorem exists_taskReopened (h : r.Follows t) (ha : Attempted t i a t')
    (hr : t'.Regioned) (hi : t'.taskAt id = .ok i)
    (hk : t.regionOf[i]? = some k) (hstate : a.state ≠ .finished) :
    ∃ r', r.taskReopened t' id = .ok r' ∧ r'.Follows t' := by
  refine h.taskReopened ha.sameReaders hr hi (ha.regionOf ▸ hk) fun m j => ?_
  by_cases hj : j = i
  · rw [hj, ha.waiting_self, Waiting, hk, Option.some.injEq]
    tauto
  · rw [ha.waiting_iff hj]
    simp [hj]

/-- The report that a task has finished. -/
theorem exists_taskFinished (h : r.Follows t) (ha : Attempted t i a t')
    (hr : t'.Regioned) (hi : t'.taskAt id = .ok i)
    (hk : t.regionOf[i]? = some k) (hstate : a.state = .finished) :
    ∃ r' groups, r.taskFinished t' id = .ok (r', groups) ∧ r'.Follows t' ∧
      groups.Nodup ∧ ∀ g, g ∈ groups ↔ t'.ReadsBlocking k g ∧
        ∀ m, t'.ReadsBlocking m g → ∀ j, ¬ t'.Waiting m j := by
  refine h.taskFinished ha.sameReaders hr hi hk (ha.regionOf ▸ hk)
    fun m j => ?_
  by_cases hj : j = i
  · rw [hj, ha.waiting_self]
    simp [hstate]
  · rw [ha.waiting_iff hj]
    simp [hj]

end Attempts

/-! ## Steps -/

section Steps

variable {s : JobState}

/-- What a call keeps: the coupling, and what regions the tasks are in. -/
structure Keeps (s s' : JobState) : Prop where
  coupled : s'.Coupled
  steady : Steady s.topology s'.topology

theorem Coupled.refl (h : s.Coupled) : s.Keeps s := ⟨h, .refl _⟩

theorem Coupled.whole (h : s.Coupled) : s.topology.Whole := h.reachable.whole

theorem Coupled.taskAt_eq_ok (h : s.Coupled) {id : TaskId} {i : Nat} :
    s.topology.taskAt id = .ok i ↔ s.topology.taskIdAt i = some id :=
  h.whole.wired.indexed.taskAt_eq_ok

theorem Coupled.deploy (h : s.Coupled) (id : TaskId) :
    s.Keeps (s.deploy id).1 ∧
      (s.deploy id).1.topology.taskIdAt = s.topology.taskIdAt := by
  obtain ⟨r, hrelease, hfollows⟩ := h.follows
  rcases deploy_cases h.reachable id with
    ⟨e, herror, -⟩ | ⟨i, task, number, t', hdeployed⟩
  · rw [herror]
    exact ⟨h.refl, rfl⟩
  have hi := hdeployed.taskIdAt
  have ha := hdeployed.attempted
  have hreachable := hdeployed.reachable
  by_cases hstate : task.state = .finished
  · obtain ⟨k, hk⟩ := h.reachable.regioned.exists_regionOf (lt_of_taskIdAt hi)
    obtain ⟨r', hreopened, hfollows'⟩ := exists_taskReopened
      (a := ⟨number, .created⟩) hfollows ha hreachable.regioned
      (ha.taskAt_eq_ok hreachable hi) hk (by simp)
    have hok : s.release.taskReopened t' id = .ok (.region r') := by
      rw [hrelease, ReleaseStrategy.taskReopened, hreopened]
      rfl
    rw [hdeployed.reopened hstate _ hok]
    exact ⟨⟨⟨hreachable, r', rfl, hfollows'⟩, ha.steady⟩, ha.links.taskIdAt⟩
  · have hsame : (TaskState.created = .finished) ↔ s.topology.IsFinished i := by
      simp [IsFinished, hdeployed.getElem?, hstate]
    rw [hdeployed.unreported hstate]
    exact ⟨⟨⟨hreachable, r, hrelease, follows_of_attempted hfollows ha hsame⟩,
      ha.steady⟩, ha.links.taskIdAt⟩

/-- The groups that come free when a task of a region goes from one state to
another: those of the region that no waiting task reads, if the task has
finished now, and none otherwise. -/
structure Frees (t : Topology) (k : RegionIndex) (previous state : TaskState)
    (groups : List GroupIndex) : Prop where
  nodup : groups.Nodup
  mem_iff : ∀ g, g ∈ groups ↔ (state = .finished ∧ previous ≠ .finished) ∧
    t.ReadsBlocking k g ∧ ∀ m, t.ReadsBlocking m g → ∀ j, ¬ t.Waiting m j

theorem frees_nil {t : Topology} {k : Nat} {previous state : TaskState}
    (h : ¬ (state = .finished ∧ previous ≠ .finished)) :
    Frees t k previous state [] where
  nodup := List.nodup_nil
  mem_iff g := by simp [h]

/-- Reporting a change of state to the release strategy always works. -/
theorem exists_reportToRelease {t : Topology} {r : RegionRelease} {i k : Nat}
    {a : Attempt} {id : TaskId} {state : TaskState}
    (hrelease : s.release = .region r) (h : r.Follows t)
    (ha : Attempted t i { a with state } s.topology)
    (hattempt : t.attemptAt i = some a) (hr : s.topology.Regioned)
    (hi : s.topology.taskAt id = .ok i) (hk : t.regionOf[i]? = some k) :
    ∃ s' groups, s.reportToRelease id a.state state =
        (s', .ok (groups.filterMap (describe s.topology))) ∧
      s'.topology = s.topology ∧
      (∃ r', s'.release = .region r' ∧ r'.Follows s.topology) ∧
      Frees s.topology k a.state state groups := by
  -- The strategy is told when the task becomes finished and when it stops
  -- being that, and nothing is to be told otherwise.
  have hfinished : t.IsFinished i ↔ a.state = .finished := by
    rw [Topology.isFinished_iff, hattempt]
    simp
  unfold reportToRelease
  split
  · rename_i hnow
    obtain ⟨r', groups, hok, hfollows, hnodup, hmem⟩ :=
      exists_taskFinished h ha hr hi hk hnow.1
    rw [hrelease, ReleaseStrategy.taskFinished, hok]
    exact ⟨_, groups, rfl, rfl, ⟨r', rfl, hfollows⟩, hnodup,
      fun g => by simp [hmem, hnow]⟩
  · rename_i hnot
    split
    · rename_i hagain
      obtain ⟨r', hok, hfollows⟩ :=
        exists_taskReopened h ha hr hi hk hagain.2
      rw [hrelease, ReleaseStrategy.taskReopened, hok]
      exact ⟨_, [], rfl, rfl, ⟨r', rfl, hfollows⟩, frees_nil hnot⟩
    · rename_i hnever
      refine ⟨s, [], rfl, rfl, ⟨r, hrelease, follows_of_attempted h ha ?_⟩,
        frees_nil hnot⟩
      rw [hfinished]
      tauto

/-- What a successful report of a state amounts to. -/
structure Reported (s : JobState) (id : TaskId) (state : TaskState)
    (i k : Nat) (a : Attempt) (s' : JobState) (groups : List GroupIndex) :
    Prop where
  keeps : s.Keeps s'
  taskIdAt : s.topology.taskIdAt i = some id
  regionOf : s.topology.regionOf[i]? = some k
  attemptAt : s.topology.attemptAt i = some a
  attempted : Attempted s.topology i { a with state } s'.topology
  frees : Frees s'.topology k a.state state groups

theorem Coupled.updateState_cases (h : s.Coupled) (id : TaskId)
    (state : TaskState) :
    (∃ e, s.updateState id state = (s, .error e)) ∨
      ∃ i k a s' groups, s.updateState id state =
          (s', .ok (groups.filterMap (describe s'.topology))) ∧
        s.Reported id state i k a s' groups := by
  obtain ⟨r, hrelease, hfollows⟩ := h.follows
  rcases JobState.updateState_cases h.reachable id state with
    ⟨e, herror, -⟩ | ⟨i, a, t', hmoved⟩
  · exact .inl ⟨e, herror⟩
  have hi := hmoved.taskIdAt
  have ha := hmoved.attempted
  have hreachable := hmoved.reachable
  obtain ⟨k, hk⟩ := h.reachable.regioned.exists_regionOf (lt_of_taskIdAt hi)
  obtain ⟨s1, groups, hreport, htopology, ⟨r', hrelease', hfollows'⟩, hfrees⟩ :=
    exists_reportToRelease (s := { s with topology := t' }) hrelease hfollows
      ha hmoved.attemptAt hreachable.regioned
      (ha.taskAt_eq_ok hreachable hi) hk
  obtain ⟨s', hok, hkept, hkept'⟩ := hmoved.reported _ _ hreport
  obtain rfl : s'.topology = t' := hkept.trans htopology
  exact .inr ⟨i, k, a, s', groups, hok,
    ⟨⟨hreachable, r', hkept'.trans hrelease', hfollows'⟩, ha.steady⟩, hi, hk,
    hmoved.attemptAt, ha, hfrees⟩

/-- The new tasks are found at the end. -/
theorem taskAt_added {t t' : Topology} {o : Operator} {sibling n : Nat}
    (hext : Extended t o sibling n t') :
    ((List.range n).map fun k => (⟨o.id, o.parallelism + k⟩ : TaskId)).map
        t'.taskAt =
      ((List.range n).map (t.tasks.size + ·)).map .ok := by
  rw [List.map_map, List.map_map]
  apply List.map_congr_left
  intro k hk
  have hlt := List.mem_range.mp hk
  rw [Function.comp, Function.comp,
    hext.whole.wired.indexed.taskAt_eq_ok, hext.taskIdAt,
    if_neg (by omega), if_pos (by omega)]
  congr 3
  omega

/-- Growing a job records the new tasks as waiting. -/
theorem Coupled.rescale (h : s.Coupled) (sibling : TaskId)
    (additional : Nat) : s.Keeps (s.rescale sibling additional).1 := by
  obtain ⟨r, hrelease, hfollows⟩ := h.follows
  have hregioned := h.reachable.regioned
  rcases rescale_cases h.reachable sibling additional with ⟨e, herror, -⟩ |
    ⟨⟨i, hi⟩, hrecords⟩ | ⟨o, i, t', hi, hreachable, hext, hrecords⟩
  · rw [herror]
    exact h.refl
  · obtain ⟨k, hk⟩ := hregioned.exists_regionOf (lt_of_taskIdAt hi)
    have hadded := hfollows.tasksAdded_nil hregioned
      (h.taskAt_eq_ok.mpr hi) hk
    obtain ⟨s', handle, hok, htopology, hrelease'⟩ := hrecords (.region r)
      (by rw [hrelease, ReleaseStrategy.tasksAdded, hadded])
    rw [hok]
    exact ⟨⟨htopology ▸ h.reachable, r, hrelease', htopology ▸ hfollows⟩,
      htopology ▸ .refl _⟩
  · obtain ⟨k, hk⟩ := hregioned.exists_regionOf (lt_of_taskIdAt hi)
    have hsteady := hext.steady hregioned hk
    obtain ⟨r', hadded, hfollows'⟩ := hfollows.tasksAdded
      (hext.sameReaders hregioned hk) hreachable.regioned
      (hext.taskAt_of_taskIdAt hi) (hsteady.regionOf i k hk)
      (taskAt_added hext) (fun m j => hext.waiting_iff hregioned hk)
    obtain ⟨s', handle, hok, rfl, hrelease'⟩ := hrecords (.region r')
      (by rw [hrelease, ReleaseStrategy.tasksAdded, hadded])
    rw [hok]
    exact ⟨⟨hreachable, r', hrelease', hfollows'⟩, hsteady⟩

/-! ## Runs -/

/-- Only a rescale adds tasks. -/
theorem Coupled.run (h : s.Coupled) (c : Call) : s.Keeps (c.run s) ∧
    ((∀ sibling additional, c ≠ .rescale sibling additional) →
      (c.run s).topology.taskIdAt = s.topology.taskIdAt) := by
  cases c with
  | deploy id =>
    obtain ⟨hkeeps, hids⟩ := h.deploy id
    exact ⟨hkeeps, fun _ => hids⟩
  | updateState id state =>
    rw [Call.run]
    rcases h.updateState_cases id state with
      ⟨e, herror⟩ | ⟨i, k, a, s', groups, hok, hreported⟩
    · rw [herror]
      exact ⟨h.refl, fun _ => rfl⟩
    · rw [hok]
      exact ⟨hreported.keeps, fun _ => hreported.attempted.links.taskIdAt⟩
  | handleFailure id cause =>
    rw [Call.run, JobState.handleFailure]
    split <;> exact ⟨⟨⟨h.reachable, h.follows⟩, .refl _⟩, fun _ => rfl⟩
  | planCheckpoint scope =>
    rw [Call.run, JobState.planCheckpoint]
    split <;> exact ⟨⟨⟨h.reachable, h.follows⟩, .refl _⟩, fun _ => rfl⟩
  | rescale sibling additional =>
    exact ⟨h.rescale sibling additional,
      fun hnot => absurd rfl (hnot sibling additional)⟩

theorem Coupled.runAll (h : s.Coupled) (calls : List Call) :
    s.Keeps (s.runAll calls) := by
  induction calls generalizing s with
  | nil => exact h.refl
  | cons c calls ih =>
    have hstep := (h.run c).1
    have hrest := ih hstep.coupled
    exact ⟨hrest.coupled, hstep.steady.trans hrest.steady⟩

end Steps

end JobState

end ControlPlane
