import Mathlib
import ControlPlane.Proofs.Job.Restarted

/-!
# The countdowns of rescales

A rescale hands out a countdown and remembers it beside every task that it
has added. The first report that such a task runs signals the countdown and
forgets the task, so the countdown always stands at the number of tasks that
are remembered with it. Tasks are never removed, so no two rescales add the
same one.
-/

namespace ControlPlane

namespace JobState

open ControlPlane.Topology

/-! ## Reports -/

/-- The task of which a call reports that it runs, if the report is
accepted. -/
def runningReport (s : JobState) : Call → Option TaskId
  | .updateState id .running =>
    if (s.updateState id .running).2.isOk then some id else none
  | _ => none

/-- The tasks that are reported to run in the course of some calls. -/
def runningReports (s : JobState) : List Call → List TaskId
  | [] => []
  | c :: calls =>
    (s.runningReport c).toList ++ (c.run s).runningReports calls

/-! ## What a call does to the countdowns -/

/-- No countdown has changed, and the same tasks are waited for. -/
structure SameCounts (s s' : JobState) : Prop where
  countdowns : s'.countdowns = s.countdowns
  pending : s'.pending = s.pending

theorem SameCounts.refl (s : JobState) : SameCounts s s := ⟨rfl, rfl⟩

/-- What a successful rescale does. -/
structure Rescaled (s : JobState) (sibling : TaskId) (additional : Nat)
    (added : List TaskId) (s' : JobState) : Prop where
  extendRegion : s.topology.extendRegion sibling additional =
    (s'.topology, .ok added)
  countdowns : s'.countdowns = s.countdowns.push ⟨added.length⟩
  pending : s'.pending = added.foldl (·.insert · s.countdowns.size) s.pending

section Counts

variable {s s' : JobState}

theorem sameCounts_deploy (s : JobState) (id : TaskId) :
    SameCounts s (s.deploy id).1 := by
  unfold JobState.deploy
  split
  · exact .refl s
  · exact .refl s
  · dsimp only
    split
    · split <;> exact ⟨rfl, rfl⟩
    · exact ⟨rfl, rfl⟩

theorem sameCounts_reportToRelease (s : JobState) (id : TaskId)
    (previous state : TaskState) :
    SameCounts s (s.reportToRelease id previous state).1 := by
  unfold reportToRelease
  split
  · split <;> exact ⟨rfl, rfl⟩
  · split
    · split <;> exact ⟨rfl, rfl⟩
    · exact .refl s

theorem sameCounts_handleFailure (s : JobState) (id : TaskId)
    (cause : FailureCause) : SameCounts s (s.handleFailure id cause).1 := by
  unfold JobState.handleFailure
  split <;> exact ⟨rfl, rfl⟩

theorem sameCounts_planCheckpoint (s : JobState) (scope : Checkpoint.Scope) :
    SameCounts s (s.planCheckpoint scope).1 := by
  unfold JobState.planCheckpoint
  split <;> exact ⟨rfl, rfl⟩

/-- A report is signalled if it is accepted and says that the task runs. -/
theorem updateState_counts (s : JobState) (id : TaskId) (state : TaskState) :
    ∃ s1, SameCounts s s1 ∧ (s.updateState id state).1 =
      if state = .running ∧ (s.updateState id state).2.isOk then
        s1.signalRunning id
      else s1 := by
  cases hmove : s.topology.transition id state with
  | error e =>
    refine ⟨s, .refl s, ?_⟩
    simp [JobState.updateState, hmove, Except.isOk, Except.toBool]
  | ok moved =>
  obtain ⟨t, previous⟩ := moved
  have hkeep := sameCounts_reportToRelease { s with topology := t } id
    previous state
  cases hreport : ({ s with topology := t } : JobState).reportToRelease id
    previous state with
  | mk s1 result =>
  rw [hreport] at hkeep
  refine ⟨s1, ⟨hkeep.countdowns, hkeep.pending⟩, ?_⟩
  cases result with
  | error e =>
    simp [JobState.updateState, hmove, hreport, Except.isOk, Except.toBool]
  | ok released =>
    simp [JobState.updateState, hmove, hreport, Except.isOk, Except.toBool]

/-- A rescale fails and leaves the countdowns alone, or there is a new
one. -/
theorem rescale_counts (s : JobState) (sibling : TaskId) (additional : Nat) :
    ((∃ s' e, s.rescale sibling additional = (s', .error e) ∧
        SameCounts s s') ∨
      ∃ s' added, s.rescale sibling additional =
          (s', .ok (added, s.countdowns.size)) ∧
        s.Rescaled sibling additional added s') := by
  cases hextend : s.topology.extendRegion sibling additional with
  | mk t result =>
  cases result with
  | error e =>
    refine .inl ⟨{ s with topology := t }, e, ?_, rfl, rfl⟩
    simp only [JobState.rescale, hextend]
  | ok added =>
  cases hadded : s.release.tasksAdded t sibling added with
  | mk release result =>
  cases result with
  | error e =>
    refine .inl ⟨{ s with topology := t, release }, e, ?_, rfl, rfl⟩
    simp only [JobState.rescale, hextend, hadded]
  | ok _ =>
    refine .inr ⟨{ s with
        topology := t
        release
        countdowns := s.countdowns.push ⟨added.length⟩
        pending := added.foldl (·.insert · s.countdowns.size) s.pending },
      added, ?_, hextend, rfl, rfl⟩
    simp only [JobState.rescale, hextend, hadded]

theorem rescaled_of_eq_ok {sibling : TaskId} {additional : Nat}
    {added : List TaskId} {handle : CountdownIndex}
    (h : s.rescale sibling additional = (s', .ok (added, handle))) :
    handle = s.countdowns.size ∧ s.Rescaled sibling additional added s' := by
  rcases rescale_counts s sibling additional with
    ⟨s1, e, herror, -⟩ | ⟨s1, added', hok, hrescaled⟩
  · rw [h] at herror
    cases (Prod.mk.inj herror).2
  · rw [h] at hok
    obtain ⟨rfl, hresult⟩ := Prod.mk.inj hok
    cases hresult
    exact ⟨rfl, hrescaled⟩

/-- A call leaves the countdowns alone, or a task is reported to run, or there
is a new countdown. -/
theorem counts_cases (s : JobState) (c : Call) :
    (SameCounts s (c.run s) ∧ s.runningReport c = none) ∨
      (∃ id s1, s.runningReport c = some id ∧ SameCounts s s1 ∧
        c.run s = s1.signalRunning id) ∨
      ∃ sibling additional added, s.runningReport c = none ∧
        s.Rescaled sibling additional added (c.run s) := by
  cases c with
  | deploy id => exact .inl ⟨sameCounts_deploy s id, rfl⟩
  | handleFailure id cause =>
    exact .inl ⟨sameCounts_handleFailure s id cause, rfl⟩
  | planCheckpoint scope => exact .inl ⟨sameCounts_planCheckpoint s scope, rfl⟩
  | updateState id state =>
    obtain ⟨s1, hsame, hrun⟩ := updateState_counts s id state
    -- Of the reports, only one that a task runs and that is accepted counts.
    by_cases hreported : state = .running ∧ (s.updateState id state).2.isOk
    · rw [if_pos hreported] at hrun
      obtain ⟨rfl, hok⟩ := hreported
      exact .inr (.inl ⟨id, s1, if_pos hok, hsame, hrun⟩)
    · rw [if_neg hreported] at hrun
      refine .inl ⟨by rw [Call.run, hrun]; exact hsame, ?_⟩
      cases state with
      | running => exact if_neg fun hok => hreported ⟨rfl, hok⟩
      | _ => rfl
  | rescale sibling additional =>
    rcases rescale_counts s sibling additional with
      ⟨s', e, herror, hsame⟩ | ⟨s', added, hok, hrescaled⟩
    · refine .inl ⟨?_, rfl⟩
      rw [Call.run, herror]
      exact hsame
    · refine .inr (.inr ⟨sibling, additional, added, rfl, ?_⟩)
      rw [Call.run, hok]
      exact hrescaled

end Counts

/-! ## The tasks waited for -/

/-- The tasks that are waited for are tasks of the job, each with a countdown
that there is. -/
structure Tracked (s : JobState) : Prop where
  reachable : s.topology.Reachable
  pending : ∀ id handle, s.pending[id]? = some handle →
    s.topology.HasTask id ∧ handle < s.countdowns.size

/-- A countdown stands at the number of different tasks that are waited for
with it. -/
structure Counting (s : JobState) (handle : CountdownIndex)
    (waiting : List TaskId) : Prop where
  nodup : waiting.Nodup
  pending : ∀ id, s.pending[id]? = some handle ↔ id ∈ waiting
  countdown : s.countdowns[handle]? = some ⟨waiting.length⟩

theorem tracked_start {t : Topology} (ht : t.Reachable) (config : Config)
    (isAvailable : PartitionId → Bool) :
    (start t config isAvailable).Tracked :=
  ⟨ht, fun id handle h => by simp [start] at h⟩

section Steps

variable {s s' : JobState} {handle : CountdownIndex} {waiting : List TaskId}
  {sibling : TaskId} {additional : Nat} {added : List TaskId}

theorem topology_handleFailure (s : JobState) (id : TaskId)
    (cause : FailureCause) : (s.handleFailure id cause).1.topology = s.topology := by
  rw [JobState.handleFailure]
  split <;> rfl

theorem topology_planCheckpoint (s : JobState) (scope : Checkpoint.Scope) :
    (s.planCheckpoint scope).1.topology = s.topology := by
  rw [JobState.planCheckpoint]
  split <;> rfl

theorem topology_rescale (s : JobState) (sibling : TaskId) (additional : Nat) :
    (s.rescale sibling additional).1.topology =
      (Topology.Call.extendRegion sibling additional).run s.topology := by
  rw [Topology.Call.run, JobState.rescale]
  cases s.topology.extendRegion sibling additional with
  | mk t result =>
  cases result with
  | error e => rfl
  | ok added =>
    dsimp only
    split <;> rfl

/-- What a call to a job calls its topology with. -/
def Call.topologyCalls : Call → List Topology.Call
  | deploy id => [.attachAttempt id]
  | updateState id state => [.transition id state]
  | handleFailure _ _ | planCheckpoint _ => []
  | rescale sibling additional => [.extendRegion sibling additional]

theorem topology_run (s : JobState) (c : Call) :
    (c.run s).topology = s.topology.runAll c.topologyCalls := by
  cases c with
  | deploy id => exact topology_deploy s id
  | updateState id state => exact topology_updateState s id state
  | handleFailure id cause => exact topology_handleFailure s id cause
  | planCheckpoint scope => exact topology_planCheckpoint s scope
  | rescale sibling additional => exact topology_rescale s sibling additional

theorem topology_runAll (s : JobState) (calls : List Call) :
    (s.runAll calls).topology =
      s.topology.runAll (calls.flatMap Call.topologyCalls) := by
  induction calls generalizing s with
  | nil => rfl
  | cons c calls ih =>
    rw [List.flatMap_cons, Topology.runAll, List.foldl_append]
    refine (ih (c.run s)).trans ?_
    rw [topology_run]
    rfl

theorem reachable_run (h : s.topology.Reachable) (c : Call) :
    (c.run s).topology.Reachable := by
  rw [topology_run]
  exact h.runAll _

theorem hasTask_run (h : s.topology.Reachable) (c : Call) {id : TaskId}
    (hid : s.topology.HasTask id) : (c.run s).topology.HasTask id := by
  rw [topology_run]
  exact hid.runAll h _

theorem hasTask_runAll (h : s.topology.Reachable) (calls : List Call)
    {id : TaskId} (hid : s.topology.HasTask id) :
    (s.runAll calls).topology.HasTask id := by
  rw [topology_runAll]
  exact hid.runAll h _

/-- The tasks added are new, and different from each other. -/
theorem Rescaled.fresh (hs : s.topology.Reachable)
    (h : s.Rescaled sibling additional added s') : added.Nodup ∧
      ∀ id ∈ added, ¬ s.topology.HasTask id ∧ s'.topology.HasTask id := by
  rcases hs.extendRegion_cases sibling additional with
    ⟨e, herror⟩ | ⟨-, hnil⟩ | ⟨o, i, t, -, -, hext, hok⟩
  · rw [h.extendRegion] at herror
    cases (Prod.mk.inj herror).2
  · rw [h.extendRegion] at hnil
    cases (Prod.mk.inj hnil).2
    exact ⟨.nil, by simp⟩
  · rw [h.extendRegion] at hok
    obtain ⟨rfl, hadded⟩ := Prod.mk.inj hok
    cases hadded
    constructor
    · refine List.nodup_range.map fun k k' hk => ?_
      simpa using hk
    · intro id hid
      obtain ⟨k, hk, rfl⟩ := List.mem_map.mp hid
      rw [List.mem_range] at hk
      have hnew : s'.topology.taskIdAt (s.topology.tasks.size + k) =
          some ⟨o.id, o.parallelism + k⟩ := by
        rw [hext.taskIdAt, if_neg (by omega), if_pos (by omega),
          Nat.add_sub_cancel_left]
      refine ⟨?_, _, hnew⟩
      -- A task there was would stand at two positions.
      rintro ⟨j, hj⟩
      have hlt := lt_of_taskIdAt hj
      have hold : s'.topology.taskIdAt j = some ⟨o.id, o.parallelism + k⟩ := by
        rw [hext.taskIdAt, if_pos hlt, hj]
      have hjk := hext.whole.wired.indexed.taskId_inj hold hnew
      omega

theorem getElem?_foldl_insert (ids : List TaskId) (handle : CountdownIndex)
    (pending : Std.TreeMap TaskId CountdownIndex) (id : TaskId) :
    (ids.foldl (·.insert · handle) pending)[id]? =
      if id ∈ ids then some handle else pending[id]? := by
  induction ids generalizing pending with
  | nil => simp
  | cons x ids ih =>
    rw [List.foldl_cons, ih, Std.TreeMap.getElem?_insert]
    by_cases hmem : id ∈ ids
    · rw [if_pos hmem, if_pos (List.mem_cons_of_mem _ hmem)]
    · rw [if_neg hmem]
      by_cases hx : x = id
      · subst hx
        rw [if_pos Std.ReflCmp.compare_self, if_pos List.mem_cons_self]
      · rw [if_neg (by simpa using hx),
          if_neg (by simp [Ne.symm hx, hmem])]

theorem Rescaled.getElem?_pending (h : s.Rescaled sibling additional added s')
    (id : TaskId) : s'.pending[id]? =
      if id ∈ added then some s.countdowns.size else s.pending[id]? := by
  rw [h.pending, getElem?_foldl_insert]

theorem getElem?_pending_signalRunning (s : JobState) (id id' : TaskId) :
    (s.signalRunning id).pending[id']? =
      if id' = id then none else s.pending[id']? := by
  unfold signalRunning
  split
  · rename_i hnone
    split
    · rename_i heq
      rw [heq, hnone]
    · rfl
  · rw [Std.TreeMap.getElem?_erase]
    by_cases heq : id' = id
    · rw [if_pos heq, heq, if_pos Std.ReflCmp.compare_self]
    · rw [if_neg heq, if_neg (by simpa using Ne.symm heq)]

/-- A signal is for the countdown that the task is waited for with. -/
theorem getElem?_countdowns_signalRunning (s : JobState) (id : TaskId)
    (handle : CountdownIndex) : (s.signalRunning id).countdowns[handle]? =
      if s.pending[id]? = some handle then
        s.countdowns[handle]?.map (·.countDown)
      else s.countdowns[handle]? := by
  unfold signalRunning
  split
  · rename_i hnone
    rw [hnone, if_neg nofun]
  · rename_i other hother
    rw [hother, Array.getElem?_modify]
    by_cases heq : other = handle
    · rw [if_pos heq, if_pos (congrArg some heq)]
    · rw [if_neg heq, if_neg (by simpa using heq)]

theorem size_countdowns_signalRunning (s : JobState) (id : TaskId) :
    (s.signalRunning id).countdowns.size = s.countdowns.size := by
  unfold signalRunning
  split
  · rfl
  · exact Array.size_modify

theorem Tracked.run (h : s.Tracked) (c : Call) : (c.run s).Tracked := by
  have hreachable := reachable_run h.reachable c
  have hkeep : ∀ {id}, s.topology.HasTask id →
      (c.run s).topology.HasTask id := hasTask_run h.reachable c
  refine ⟨hreachable, fun id handle hid => ?_⟩
  rcases counts_cases s c with ⟨hsame, -⟩ | ⟨id', s1, -, hsame, hrun⟩ |
    ⟨sibling, additional, added, -, hrescaled⟩
  · rw [hsame.pending] at hid
    obtain ⟨htask, hlt⟩ := h.pending id handle hid
    exact ⟨hkeep htask, hsame.countdowns ▸ hlt⟩
  · rw [hrun, getElem?_pending_signalRunning] at hid
    split at hid
    · cases hid
    · rw [hsame.pending] at hid
      obtain ⟨htask, hlt⟩ := h.pending id handle hid
      refine ⟨hkeep htask, ?_⟩
      rw [hrun, size_countdowns_signalRunning, hsame.countdowns]
      exact hlt
  · rw [hrescaled.countdowns, Array.size_push]
    rw [hrescaled.getElem?_pending] at hid
    split at hid
    · rename_i hmem
      cases hid
      exact ⟨((hrescaled.fresh h.reachable).2 id hmem).2, Nat.lt_succ_self _⟩
    · obtain ⟨htask, hlt⟩ := h.pending id handle hid
      exact ⟨hkeep htask, Nat.lt_succ_of_lt hlt⟩

theorem Tracked.runAll (h : s.Tracked) (calls : List Call) :
    (s.runAll calls).Tracked := by
  induction calls generalizing s with
  | nil => exact h
  | cons c calls ih => exact ih (h.run c)

/-! ## The countdown of a rescale -/

theorem Counting.sameCounts (h : s.Counting handle waiting) {s' : JobState}
    (hsame : SameCounts s s') : s'.Counting handle waiting := by
  refine ⟨h.nodup, ?_, ?_⟩
  · rw [hsame.pending]
    exact h.pending
  · rw [hsame.countdowns]
    exact h.countdown

/-- The task that runs is not waited for any more. -/
theorem Counting.signalRunning (h : s.Counting handle waiting) (id : TaskId) :
    (s.signalRunning id).Counting handle (waiting.erase id) := by
  refine ⟨h.nodup.erase id, fun id' => ?_, ?_⟩
  · rw [getElem?_pending_signalRunning, h.nodup.mem_erase_iff, ← h.pending]
    by_cases heq : id' = id <;> simp [heq]
  · rw [getElem?_countdowns_signalRunning, h.countdown]
    by_cases hmem : id ∈ waiting
    · rw [if_pos ((h.pending id).mpr hmem), List.length_erase_of_mem hmem]
      rfl
    · rw [if_neg fun hid => hmem ((h.pending id).mp hid),
        List.erase_of_not_mem hmem]

/-- Another rescale has a countdown and tasks of its own. -/
theorem Counting.rescaled (hs : s.Tracked) (h : s.Counting handle waiting)
    (hrescaled : s.Rescaled sibling additional added s') :
    s'.Counting handle waiting := by
  have hlt := (Array.getElem?_eq_some_iff.mp h.countdown).1
  refine ⟨h.nodup, fun id => ?_, ?_⟩
  · -- A new task takes no place in the map, as those in it exist.
    rw [hrescaled.getElem?_pending]
    split
    · rename_i hmem
      refine iff_of_false ?_ fun hwaiting => ?_
      · rw [Option.some.injEq]
        exact Nat.ne_of_gt hlt
      · exact ((hrescaled.fresh hs.reachable).2 id hmem).1
          (hs.pending id handle ((h.pending id).mpr hwaiting)).1
    · exact h.pending id
  · rw [hrescaled.countdowns, Array.getElem?_push_lt hlt,
      ← Array.getElem?_eq_getElem hlt]
    exact h.countdown

/-- At first all tasks that were added are waited for. -/
theorem Rescaled.counting (hs : s.Tracked)
    (h : s.Rescaled sibling additional added s') :
    s'.Counting s.countdowns.size added := by
  refine ⟨(h.fresh hs.reachable).1, fun id => ?_, ?_⟩
  · rw [h.getElem?_pending]
    split
    · rename_i hmem
      exact iff_of_true rfl hmem
    · rename_i hnot
      refine iff_of_false (fun hid => ?_) hnot
      exact Nat.lt_irrefl _ (hs.pending id _ hid).2
  · rw [h.countdowns, Array.getElem?_push_size]

theorem Counting.run (hs : s.Tracked) (h : s.Counting handle waiting)
    (c : Call) : (c.run s).Counting handle
      (waiting.filter (· ∉ (s.runningReport c).toList)) := by
  rcases counts_cases s c with ⟨hsame, hnone⟩ |
    ⟨id, s1, hsome, hsame, hrun⟩ |
    ⟨sibling, additional, added, hnone, hrescaled⟩
  · simpa [hnone] using h.sameCounts hsame
  · have herase : waiting.erase id =
        waiting.filter (· ∉ (some id).toList) := by
      rw [h.nodup.erase_eq_filter]
      exact List.filter_congr fun x _ => by simp [bne, beq_eq_decide]
    rw [hrun, hsome, ← herase]
    exact (h.sameCounts hsame).signalRunning id
  · simpa [hnone] using h.rescaled hs hrescaled

/-- At every moment the tasks are waited for that have not been reported to
run since. -/
theorem Counting.runAll (hs : s.Tracked) (h : s.Counting handle waiting)
    (calls : List Call) : (s.runAll calls).Counting handle
      (waiting.filter (· ∉ s.runningReports calls)) := by
  induction calls generalizing s waiting with
  | nil => simpa [runningReports, JobState.runAll] using h
  | cons c calls ih =>
    have hrest := ih (hs.run c) (h.run hs c)
    rw [List.filter_filter] at hrest
    have hsplit : waiting.filter (· ∉ s.runningReports (c :: calls)) =
        waiting.filter fun id => decide (id ∉ (c.run s).runningReports calls) &&
          decide (id ∉ (s.runningReport c).toList) := by
      refine List.filter_congr fun id _ => ?_
      simp [runningReports, not_or, Bool.and_comm]
    rw [hsplit]
    exact hrest

end Steps

/-- After any calls to a job, a rescale adds tasks that are not there yet and
hands out a countdown. Whatever is called then, the countdown stands at the
number of these tasks that have not been reported to run since, and a later
rescale adds other tasks and hands out another countdown. -/
theorem remaining_of_rescale {t : Topology} (ht : t.Reachable)
    (config : Config) (isAvailable : PartitionId → Bool) (before : List Call)
    {sibling : TaskId} {additional : Nat} {s : JobState}
    {added : List TaskId} {handle : CountdownIndex}
    (hok : ((start t config isAvailable).runAll before).rescale sibling
      additional = (s, .ok (added, handle))) :
    added.Nodup ∧
      (∀ id ∈ added, ¬ ((start t config isAvailable).runAll
        before).topology.HasTask id) ∧
      ∀ after, (s.runAll after).countdowns[handle]? =
          some ⟨(added.filter (· ∉ s.runningReports after)).length⟩ ∧
        ∀ sibling' additional' s' added' handle',
          (s.runAll after).rescale sibling' additional' =
            (s', .ok (added', handle')) →
          handle' ≠ handle ∧ added.Disjoint added' := by
  have htracked := (tracked_start ht config isAvailable).runAll before
  generalize (start t config isAvailable).runAll before = s0 at *
  obtain ⟨rfl, hrescaled⟩ := rescaled_of_eq_ok hok
  obtain ⟨hnodup, hfresh⟩ := hrescaled.fresh htracked.reachable
  have htracked' : s.Tracked := by
    have hrun := htracked.run (.rescale sibling additional)
    rwa [Call.run, hok] at hrun
  refine ⟨hnodup, fun id hid => (hfresh id hid).1, fun after => ?_⟩
  have hcounting := (hrescaled.counting htracked).runAll htracked' after
  refine ⟨hcounting.countdown, fun sibling' additional' s' added' handle' hok' =>
    ?_⟩
  obtain ⟨rfl, hrescaled'⟩ := rescaled_of_eq_ok hok'
  refine ⟨Nat.ne_of_gt (Array.getElem?_eq_some_iff.mp hcounting.countdown).1,
    fun id hid hid' => ?_⟩
  -- What this rescale has added is there when the other one adds its tasks.
  have hknown : (s.runAll after).topology.HasTask id :=
    hasTask_runAll htracked'.reachable after (hfresh id hid).2
  exact ((hrescaled'.fresh (htracked'.runAll after).reachable).2 id hid').1
    hknown

/-- The small job with two more sinks. -/
def widenedJob : JobState :=
  ((start sample {} (fun _ => true)).rescale ⟨sampleSink, 0⟩ 2).1

/-- The first of the new sinks is reported to run, twice. -/
def runFirst : List Call :=
  [.deploy ⟨sampleSink, 2⟩, .updateState ⟨sampleSink, 2⟩ .running,
    .updateState ⟨sampleSink, 2⟩ .running]

/-- The second sink is still waited for. -/
theorem remaining_widenedJob :
    (start sample {} (fun _ => true)).rescale ⟨sampleSink, 0⟩ 2 =
        (widenedJob, .ok ([⟨sampleSink, 2⟩, ⟨sampleSink, 3⟩], 0)) ∧
      (widenedJob.runAll runFirst).countdowns[0]? = some ⟨1⟩ := by
  have hresult : ((start sample {} (fun _ => true)).rescale
      ⟨sampleSink, 0⟩ 2).2.toOption =
        some ([⟨sampleSink, 2⟩, ⟨sampleSink, 3⟩], 0) := by
    decide +kernel
  have hok : (start sample {} (fun _ => true)).rescale ⟨sampleSink, 0⟩ 2 =
      (widenedJob, .ok ([⟨sampleSink, 2⟩, ⟨sampleSink, 3⟩], 0)) := by
    refine Prod.ext rfl ?_
    generalize (start sample {} (fun _ => true)).rescale ⟨sampleSink, 0⟩ 2 = x
      at hresult
    obtain ⟨s, e | result⟩ := x
    · cases hresult
    · exact congrArg Except.ok (Option.some.inj hresult)
  have hleft : ([⟨sampleSink, 2⟩, ⟨sampleSink, 3⟩].filter
      (· ∉ widenedJob.runningReports runFirst)).length = 1 := by
    decide +kernel
  obtain ⟨-, -, hafter⟩ := remaining_of_rescale reachable_sample {}
    (fun _ => true) [] hok
  refine ⟨hok, ?_⟩
  rw [(hafter runFirst).1, hleft]

end JobState

end ControlPlane
