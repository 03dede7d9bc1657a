import Mathlib
import ControlPlane.Proofs.Checkpoint.Barriers
import ControlPlane.Proofs.Checkpoint.TaskStates
import ControlPlane.Proofs.Topology.InOrder

/-!
# The lists of a plan

The lists of a plan are put together operator by operator, and each operator
adds some of its tasks in their order. So no list has a task twice, whichever
way the plan was made. A plan for the whole job leaves no task out: each of
them is either waited for or listed as finished.
-/

namespace ControlPlane.Checkpoint

open ControlPlane.Topology

/-! ## Putting lists together -/

/-- A part of a list without repetition is known by its elements. -/
theorem eq_filter_of_sublist {α : Type*} {l l' : List α} (hnodup : l.Nodup)
    (hsub : l'.Sublist l) {pick : α → Bool}
    (hmem : ∀ x ∈ l, x ∈ l' ↔ pick x = true) : l' = l.filter pick := by
  induction hsub with
  | slnil => rfl
  | @cons l' l x hsub ih =>
    obtain ⟨hx, hnodup⟩ := List.nodup_cons.mp hnodup
    have hnot : ¬ pick x = true := fun hpick =>
      hx (hsub.subset ((hmem x List.mem_cons_self).mpr hpick))
    rw [List.filter_cons_of_neg hnot]
    exact ih hnodup fun y hy => hmem y (List.mem_cons_of_mem _ hy)
  | @cons_cons l' l x hsub ih =>
    obtain ⟨hx, hnodup⟩ := List.nodup_cons.mp hnodup
    have hpick := (hmem x List.mem_cons_self).mp List.mem_cons_self
    rw [List.filter_cons_of_pos hpick, ← ih hnodup fun y hy => ?_]
    rw [← hmem y (List.mem_cons_of_mem _ hy), List.mem_cons,
      or_iff_right fun (hyx : y = x) => hx (hyx ▸ hy)]

section Collect

variable {α β : Type*} {share : α → Except Failure Plan} {xs : List α}
  {p₀ p : Plan} (get : Plan → List β) {f : α → List β}
  (hget : ∀ p q : Plan, get (p.append q) = get p ++ get q)
  (hempty : get p₀ = [])
  (hok : xs.foldlM (fun plan x => do return plan.append (← share x)) p₀ =
    .ok p)

include hget hempty hok

theorem sublist_of_shares
    (hshare : ∀ x ∈ xs, ∀ q, share x = .ok q → (get q).Sublist (f x)) :
    (get p).Sublist (xs.flatMap f) := by
  refine foldlM_ok_induction (P := fun pre (s : Plan) =>
    (get s).Sublist (pre.flatMap f)) ?_ (by simp [hempty]) hok
  intro pre x post hxs s s' hs hstep
  obtain ⟨q, hq, happend⟩ := bind_eq_ok_iff.mp hstep
  cases happend
  rw [hget, List.flatMap_append, List.flatMap_singleton]
  exact hs.append (hshare x (by simp [hxs]) q hq)

end Collect

/-- What is committed to is what is waited for, if that is so of all
shares. -/
theorem commitTo_of_shares {α : Type*} {share : α → Except Failure Plan}
    {xs : List α} {p₀ p : Plan}
    (hstart : p₀.commitTo = p₀.waitFor.map (·.task))
    (hshare : ∀ x ∈ xs, ∀ q, share x = .ok q →
      q.commitTo = q.waitFor.map (·.task))
    (hok : xs.foldlM (fun plan x => do return plan.append (← share x)) p₀ =
      .ok p) : p.commitTo = p.waitFor.map (·.task) := by
  refine foldlM_ok_induction (P := fun _ (s : Plan) =>
    s.commitTo = s.waitFor.map (·.task)) ?_ hstart hok
  intro pre x post hxs s s' hs hstep
  obtain ⟨q, hq, happend⟩ := bind_eq_ok_iff.mp hstep
  cases happend
  rw [Plan.append, hs, hshare x (by simp [hxs]) q hq, List.map_append]

/-! ## The tasks of the operators -/

/-- The ids of the tasks of an operator. -/
def idsOf (t : Topology) (o : Operator) : List TaskId :=
  (t.tasksOf o.tasks).map (·.id)

section Tasks

variable {t : Topology}

theorem idsOf_eq (h : t.Sound) {o : Operator} (ho : o ∈ t.operators) :
    idsOf t o = (List.range o.parallelism).map fun k => ⟨o.id, k⟩ := by
  have hids : (t.tasksOf o.tasks).map (·.id) =
      o.tasks.filterMap t.taskIdAt := by
    rw [tasksOf, List.map_filterMap]
    rfl
  have htasks := congrArg (List.filterMap id) (h.staffed.tasks o ho)
  rw [List.filterMap_map, List.filterMap_map] at htasks
  rw [idsOf, hids]
  refine htasks.trans ?_
  rw [← List.filterMap_eq_map]
  rfl

/-- No task belongs to two operators. -/
theorem nodup_flatMap_idsOf (h : t.Whole) :
    (t.operators.flatMap (idsOf t)).Nodup := by
  have hids : (t.operators.map (·.id)).Nodup :=
    h.ids.nodup_iff.mpr h.graph.ids_nodup
  have hflat : t.operators.flatMap (idsOf t) = t.operators.flatMap
      fun o => (List.range o.parallelism).map fun k => ⟨o.id, k⟩ :=
    List.flatMap_congr fun o ho => idsOf_eq h.toSound ho
  rw [hflat, List.nodup_flatMap]
  constructor
  · intro o _
    exact List.nodup_range.map fun k k' hk => congrArg TaskId.subtask hk
  · refine (List.pairwise_map.mp hids).imp fun hne => ?_
    intro id hid hid'
    obtain ⟨k, -, rfl⟩ := List.mem_map.mp hid
    obtain ⟨k', -, heq⟩ := List.mem_map.mp hid'
    exact hne (congrArg TaskId.vertex heq).symm

theorem task_of_attemptOf {task : Task} {a : TaskAttempt}
    (h : attemptOf t task = .ok a) : a.task = task.id := by
  unfold attemptOf at h
  split at h
  · cases h
    rfl
  · cases h

theorem task_of_roleOf {statuses : Array RunningStatus} {o : Operator}
    {must runs : Bool} {task : Task} {r : Role}
    (h : roleOf t statuses o must runs task = .ok r) :
    r.attempt.task = task.id := by
  obtain ⟨a, ha, hrest⟩ := bind_eq_ok_iff.mp h
  dsimp only at hrest
  split at hrest
  · obtain ⟨triggered, -, hret⟩ := bind_eq_ok_iff.mp hrest
    cases hret
    exact task_of_attemptOf ha
  · cases hrest
    exact task_of_attemptOf ha

/-- The parts of the tasks of an operator are in the order of the tasks. -/
theorem map_task_roles {statuses : Array RunningStatus} {o : Operator}
    {must : Bool} {status : RunningStatus} {roles : List Role}
    (h : (t.tasksOf o.tasks).zipIdx.mapM (fun (task, subtask) =>
      roleOf t statuses o must (status.contains subtask) task) = .ok roles) :
    roles.map (·.attempt.task) = idsOf t o := by
  rw [map_of_mapM_eq_ok (k := fun x => x.1.id)
    (fun _ _ hr => task_of_roleOf hr) h, idsOf]
  conv_rhs => rw [← List.zipIdx_map_fst 0 (t.tasksOf o.tasks), List.map_map]
  rfl

end Tasks

/-! ## The lists of a share -/

/-- Every list has only tasks of the operator, in their order. -/
structure Shared (t : Topology) (o : Operator) (q : Plan) : Prop where
  trigger : (q.trigger.map (·.task)).Sublist (idsOf t o)
  waitFor : (q.waitFor.map (·.task)).Sublist (idsOf t o)
  finished : (q.finished.map (·.task)).Sublist (idsOf t o)
  commitTo : q.commitTo = q.waitFor.map (·.task)

section Shares

variable {t : Topology} {allow : Bool} {q : Plan}

theorem shared_of_runningShare {target : Target}
    (hok : runningShare t allow target = .ok q) :
    Shared t target.operator q ∧ q.fullyFinished = [] := by
  obtain ⟨attempts, hattempts, hret⟩ := bind_eq_ok_iff.mp hok
  cases hret
  have hids : attempts.map (·.task) = idsOf t target.operator :=
    map_of_mapM_eq_ok (fun _ _ ha => task_of_attemptOf ha) hattempts
  have hpart : ∀ part : Bool, ((if part then attempts else []).map
      (·.task)).Sublist (idsOf t target.operator) := by
    intro part
    cases part with
    | true => exact hids ▸ .refl _
    | false => exact List.nil_sublist _
  exact ⟨⟨hpart _, hpart _, List.nil_sublist _, rfl⟩, rfl⟩

theorem shared_of_finishedShare {statuses : Array RunningStatus}
    {o : Operator} {status : RunningStatus}
    (hok : finishedShare t allow statuses o status = .ok q) :
    Shared t o q ∧
      q.fullyFinished = if status.noneRunning then [o.id] else [] := by
  have hpart : ∀ {must : Bool} {roles : List Role},
      (t.tasksOf o.tasks).zipIdx.mapM (fun (task, subtask) =>
        roleOf t statuses o must (status.contains subtask) task) = .ok roles →
      ∀ pick : Role → Bool, (((roles.filter pick).map (·.attempt)).map
        (·.task)).Sublist (idsOf t o) := by
    intro must roles hroles pick
    rw [List.map_map, ← map_task_roles hroles]
    exact List.filter_sublist.map _
  dsimp only [finishedShare] at hok
  split at hok <;> rename_i hnone <;>
    obtain ⟨must, -, hrest⟩ := bind_eq_ok_iff.mp hok <;>
    obtain ⟨roles, hroles, hret⟩ := bind_eq_ok_iff.mp hrest <;>
    cases hret <;>
    exact ⟨⟨hpart hroles _, hpart hroles _, hpart hroles _, rfl⟩,
      by simp [hnone]⟩

end Shares

/-! ## The lists of a plan -/

/-- Every list has only tasks of the job, in the order of the operators. -/
structure Listed (t : Topology) (p : Plan) : Prop where
  trigger : (p.trigger.map (·.task)).Sublist (t.operators.flatMap (idsOf t))
  waitFor : (p.waitFor.map (·.task)).Sublist (t.operators.flatMap (idsOf t))
  finished : (p.finished.map (·.task)).Sublist (t.operators.flatMap (idsOf t))
  commitTo : p.commitTo = p.waitFor.map (·.task)
  fullyFinished : p.fullyFinished.Sublist (t.operators.map (·.id))

section Plans

variable {t : Topology} {scope : Scope} {allow : Bool} {p : Plan}

/-- The lists of a plan are those of the shares of some operators. -/
theorem listed_of_shares {α : Type*} {share : α → Except Failure Plan}
    {xs : List α} (operator : α → Operator)
    (hxs : (xs.map operator).Sublist t.operators)
    (hshare : ∀ x ∈ xs, ∀ q, share x = .ok q → Shared t (operator x) q ∧
      q.fullyFinished.Sublist [(operator x).id])
    (hok : xs.foldlM (fun (plan : Plan) x => do
      return plan.append (← share x)) { mayHaveFinished := allow } = .ok p) :
    Listed t p := by
  have hids : (xs.flatMap fun x => idsOf t (operator x)).Sublist
      (t.operators.flatMap (idsOf t)) := by
    rw [← List.flatMap_map]
    exact hxs.flatMap _
  -- Each list is put together from parts, and each part is taken from the
  -- tasks of its operator.
  refine ⟨?_, ?_, ?_, commitTo_of_shares rfl
    (fun x hx q hq => (hshare x hx q hq).1.commitTo) hok, ?_⟩
  · exact (sublist_of_shares (fun q => q.trigger.map (·.task))
      (fun _ _ => List.map_append) rfl hok
      fun x hx q hq => (hshare x hx q hq).1.trigger).trans hids
  · exact (sublist_of_shares (fun q => q.waitFor.map (·.task))
      (fun _ _ => List.map_append) rfl hok
      fun x hx q hq => (hshare x hx q hq).1.waitFor).trans hids
  · exact (sublist_of_shares (fun q => q.finished.map (·.task))
      (fun _ _ => List.map_append) rfl hok
      fun x hx q hq => (hshare x hx q hq).1.finished).trans hids
  · have hfully := sublist_of_shares Plan.fullyFinished (fun _ _ => rfl) rfl
      hok fun x hx q hq => (hshare x hx q hq).2
    rw [← List.map_eq_flatMap] at hfully
    have hmap := hxs.map (·.id)
    rw [List.map_map] at hmap
    exact hfully.trans hmap

theorem listed_of_plan (h : t.Sound) (hok : plan t allow scope = .ok p) :
    Listed t p := by
  obtain ⟨-, -, ⟨-, f, -, hp⟩ | ⟨-, f, hf, hp⟩⟩ := plan_cases h hok
  · rw [planAfterFinish_eq] at hp
    refine listed_of_shares id ?_ (fun o _ q hq => ?_) hp
    · rw [List.map_id]
      exact List.filter_sublist
    · obtain ⟨hshared, hfully⟩ := shared_of_finishedShare hq
      refine ⟨hshared, ?_⟩
      rw [hfully]
      split
      · exact .refl _
      · exact List.nil_sublist _
  · refine listed_of_shares Target.operator ?_
      (fun target _ q hq => ?_) hp
    · rw [List.map_map]
      have hoperators : t.operators.map (Target.operator ∘ f) =
          t.operators.map id :=
        List.map_congr_left fun o ho => (hf o ho).operator
      rw [hoperators, List.map_id]
    · obtain ⟨hshared, hfully⟩ := shared_of_runningShare hq
      exact ⟨hshared, hfully ▸ List.nil_sublist _⟩

/-! ## Complete plans -/

/-- What the lists of a plan have to do with the tasks of the job and with
each other. -/
structure Coherent (t : Topology) (p : Plan) : Prop where
  /-- Every task of the job has an attempt. -/
  started : ∀ task ∈ t.tasks, task.attempt.isSome
  running : ∀ a ∈ p.waitFor, t.InState a.task .running
  /-- Every attempt listed is the current one of its task. -/
  current : ∀ a ∈ p.trigger ++ p.waitFor ++ p.finished, IsCurrent t a
  trigger_nodup : (p.trigger.map (·.task)).Nodup
  waitFor_nodup : (p.waitFor.map (·.task)).Nodup
  commitTo_nodup : p.commitTo.Nodup
  finished_nodup : (p.finished.map (·.task)).Nodup
  fullyFinished_nodup : p.fullyFinished.Nodup
  commitTo_eq : p.commitTo = p.waitFor.map (·.task)
  disjoint : (p.waitFor.map (·.task)).Disjoint (p.finished.map (·.task))

/-- What the lists of a plan for the whole job say of every task and every
vertex. -/
structure Complete (t : Topology) (p : Plan) : Prop where
  /-- Every task is either waited for or listed as finished. -/
  covered : ∀ task ∈ t.tasks,
    Xor (p.isWaitedFor task.id = true) (p.isFinished task.id = true)
  trigger_subset : p.trigger ⊆ p.waitFor
  /-- The vertices of which no task is waited for, in topological order. -/
  fullyFinished_eq : ∃ order, t.graph.sorted = .ok order ∧
    p.fullyFinished = (order.map (·.id)).filter fun v =>
      p.waitFor.all (·.task.vertex ≠ v)

/-- No task that a plan waits for is listed as finished. -/
theorem disjoint_of_plan (h : t.Whole) (hok : plan t allow scope = .ok p) :
    (p.waitFor.map (·.task)).Disjoint (p.finished.map (·.task)) := by
  intro id hwaited hlisted
  obtain ⟨a, ha, rfl⟩ := List.mem_map.mp hwaited
  obtain ⟨b, hb, htask⟩ := List.mem_map.mp hlisted
  obtain ⟨-, -, ⟨-, hp⟩ | ⟨-, hp⟩⟩ := of_plan h hok
  · -- Ids are not given twice, so both lists speak of one attempt.
    obtain ⟨-, i, hi, hactive⟩ := (hp.waitFor a).mp ha
    obtain ⟨-, j, hj, hnot⟩ := (hp.finished b).mp hb
    have hid := (currentAt_eq_some.mp hj).1
    rw [htask] at hid
    have hij : i = j :=
      h.wired.indexed.taskId_inj (currentAt_eq_some.mp hi).1 hid
    exact hnot (hij ▸ hactive)
  · rw [hp.finished] at hb
    cases hb

theorem isCurrent_of_plan (h : t.Whole) (hok : plan t allow scope = .ok p) :
    ∀ a ∈ p.trigger ++ p.waitFor ++ p.finished, IsCurrent t a := by
  have hcurrent : ∀ {a : TaskAttempt}, (∃ i, currentAt t i = some a) →
      IsCurrent t a :=
    fun ⟨_, hi⟩ => isCurrent_of_currentAt h.wired.indexed hi
  intro a ha
  rw [List.mem_append, List.mem_append] at ha
  obtain ⟨-, -, ⟨-, hp⟩ | ⟨-, hp⟩⟩ := of_plan h hok
  · rcases ha with (ha | ha) | ha
    · exact hcurrent (((hp.trigger a).mp ha).2.imp fun _ hi => hi.1)
    · exact hcurrent (((hp.waitFor a).mp ha).2.imp fun _ hi => hi.1)
    · exact hcurrent (((hp.finished a).mp ha).2.imp fun _ hi => hi.1)
  · rcases ha with (ha | ha) | ha
    · exact hcurrent ((hp.trigger a).mp ha).2
    · exact hcurrent ((hp.waitFor a).mp ha).2
    · rw [hp.finished] at ha
      cases ha

theorem coherent_of_plan (h : t.Whole) (hok : plan t allow scope = .ok p) :
    Coherent t p := by
  obtain ⟨hstarted, hrunning, -⟩ := of_plan h hok
  have hlisted := listed_of_plan h.toSound hok
  have hnodup := nodup_flatMap_idsOf h
  have hids : (t.operators.map (·.id)).Nodup :=
    h.ids.nodup_iff.mpr h.graph.ids_nodup
  refine ⟨fun task htask => ?_, hrunning, isCurrent_of_plan h hok,
    hnodup.sublist hlisted.trigger, hnodup.sublist hlisted.waitFor,
    hlisted.commitTo ▸ hnodup.sublist hlisted.waitFor,
    hnodup.sublist hlisted.finished, hids.sublist hlisted.fullyFinished,
    hlisted.commitTo, disjoint_of_plan h hok⟩
  obtain ⟨i, hi⟩ := Array.mem_iff_getElem?.mp htask
  obtain ⟨a, ha⟩ := hstarted i (Array.getElem?_eq_some_iff.mp hi).1
  obtain ⟨-, attempt, hattempt, -⟩ := currentAt_eq_some.mp ha
  simp only [attemptAt, hi, Option.bind_some] at hattempt
  rw [hattempt]
  rfl

/-- The lists of a plan for the whole job tell the tasks that have ended from
the other ones. -/
theorem complete_of_afterFinish (h : t.Whole) (horder : t.InOrder)
    (hstarted : ∀ i < t.tasks.size, ∃ a, currentAt t i = some a)
    (hlisted : Listed t p) (hp : AfterFinish t .job p) : Complete t p := by
  have hids : (t.operators.map (·.id)).Nodup :=
    h.ids.nodup_iff.mpr h.graph.ids_nodup
  refine ⟨fun task htask => ?_, fun a => hp.mem_waitFor, ?_⟩
  · obtain ⟨i, hi⟩ := Array.mem_iff_getElem?.mp htask
    have hid := taskIdAt_of_getElem? hi
    have hany : ∀ {attempts : List TaskAttempt} {Q : TaskIndex → Prop},
        (∀ a, a ∈ attempts ↔ Planned t.graph .job a.task.vertex ∧
          ∃ i, currentAt t i = some a ∧ Q i) →
        (attempts.any (·.task = task.id) = true ↔ Q i) := by
      intro attempts Q hmem
      have hiff := exists_any_iff h.toSound hmem (i := i)
      simp only [hid, Option.some.injEq, exists_eq_left'] at hiff
      rw [hiff]
      exact ⟨fun hQ => hQ.2.2,
        fun hQ => ⟨trivial, hstarted i (lt_of_taskIdAt hid), hQ⟩⟩
    rw [Plan.isWaitedFor, Plan.isFinished, hany hp.waitFor, hany hp.finished]
    by_cases hactive : t.IsActive i
    · exact .inl ⟨hactive, not_not_intro hactive⟩
    · exact .inr ⟨hactive, hactive⟩
  · obtain ⟨order, hsorted, hoperators⟩ := horder
    refine ⟨order, hsorted, ?_⟩
    rw [← hoperators]
    -- Both lists are in the order of the operators and differ in no member.
    refine eq_filter_of_sublist hids hlisted.fullyFinished fun v hv => ?_
    rw [List.all_eq_true, hp.fullyFinished]
    simp only [decide_eq_true_eq]
    constructor
    · rintro ⟨-, o, ho, rfl, hnone⟩ a ha hvertex
      obtain ⟨-, i, hi, hactive⟩ := (hp.waitFor a).mp ha
      exact hnone i ((h.staffed.mem_tasks ho).mpr
        ⟨_, (currentAt_eq_some.mp hi).1, hvertex⟩) hactive
    · intro hnone
      obtain ⟨o, ho, rfl⟩ := List.mem_map.mp hv
      refine ⟨trivial, o, ho, rfl, fun i hi hactive => ?_⟩
      obtain ⟨id, hid, hvertex⟩ := (h.staffed.mem_tasks ho).mp hi
      obtain ⟨a, ha⟩ := hstarted i (lt_of_taskIdAt hid)
      have htask := (currentAt_eq_some.mp ha).1
      rw [hid, Option.some.injEq] at htask
      exact hnone a ((hp.waitFor a).mpr ⟨trivial, i, ha, hactive⟩)
        (htask ▸ hvertex)

end Plans

/-- Whenever a plan is made, every task has an attempt, those waited for run,
and the lists hold current attempts without repetition. A plan for the whole
job either waits for a task or lists it as finished. -/
theorem lists_of_plan {t : Topology} (h : t.Reachable) {scope : Scope}
    {allow : Bool} {p : Plan} (hok : plan t allow scope = .ok p) :
    Coherent t p ∧ (scope = .job → Complete t p) := by
  refine ⟨coherent_of_plan h.whole hok, ?_⟩
  rintro rfl
  have hlisted := listed_of_plan h.whole.toSound hok
  obtain ⟨hstarted, hrunning, ⟨-, hp⟩ | ⟨-, hp⟩⟩ := of_plan h.whole hok
  · exact complete_of_afterFinish h.whole h.inOrder hstarted hlisted hp
  · exact complete_of_afterFinish h.whole h.inOrder hstarted hlisted
      (hp.afterFinish h.whole hstarted hrunning)

/-- After the sources have finished, a plan for the whole small job waits for
the sinks and lists the vertex of the sources as fully finished. -/
theorem lists_finishedSample :
    ∃ p, plan finishedSample true .job = .ok p ∧
      p.waitFor = [⟨⟨sampleSink, 0⟩, 0⟩, ⟨⟨sampleSink, 1⟩, 0⟩] ∧
      p.fullyFinished = [sampleSource] ∧
      Coherent finishedSample p ∧
      (Scope.job = .job → Complete finishedSample p) := by
  have hok : plan finishedSample true .job = .ok
      { trigger := [⟨⟨sampleSink, 0⟩, 0⟩, ⟨⟨sampleSink, 1⟩, 0⟩]
        waitFor := [⟨⟨sampleSink, 0⟩, 0⟩, ⟨⟨sampleSink, 1⟩, 0⟩]
        commitTo := [⟨sampleSink, 0⟩, ⟨sampleSink, 1⟩]
        finished := [⟨⟨sampleSource, 0⟩, 0⟩, ⟨⟨sampleSource, 1⟩, 0⟩]
        fullyFinished := [sampleSource]
        mayHaveFinished := true } := by
    decide +kernel
  exact ⟨_, hok, rfl, rfl, lists_of_plan (reachable_sampleIn _) hok⟩

end ControlPlane.Checkpoint
