import Mathlib
import ControlPlane.Proofs.Checkpoint.RunningStatus
import ControlPlane.Proofs.Checkpoint.Tasks
import ControlPlane.Proofs.Topology.Feeders

/-!
# What one operator adds to a plan

A plan is put together from the shares of operators. While everything runs,
a share depends on nothing but the part of the operator in the scope. After
some tasks have finished it depends on who still runs upstream: an operator
as a whole is asked first whether one of its inputs feeds all of its tasks,
and only if none does is every task asked for itself. Both questions together
are the one question whether a task that runs feeds the task.
-/

namespace ControlPlane.Checkpoint

open ControlPlane.Topology

/-! ## Putting shares together -/

section Collect

variable {α β : Type*} {share : α → Except Failure Plan} {xs : List α}
  {p₀ p : Plan}

/-- What a plan lists is what the shares list that it is put together
from. -/
theorem mem_of_shares (get : Plan → List β) {R : α → β → Prop}
    (hget : ∀ p q : Plan, get (p.append q) = get p ++ get q)
    (hempty : get p₀ = [])
    (hshare : ∀ x ∈ xs, ∀ q, share x = .ok q → ∀ b, b ∈ get q ↔ R x b)
    (hok : xs.foldlM (fun plan x => do return plan.append (← share x)) p₀ =
      .ok p) (b : β) : b ∈ get p ↔ ∃ x ∈ xs, R x b := by
  refine foldlM_ok_induction (P := fun pre (s : Plan) => b ∈ get s ↔
    ∃ x ∈ pre, R x b) ?_ (by simp [hempty]) hok
  intro pre x post hxs s s' hs hstep
  have hx : x ∈ xs := by simp [hxs]
  obtain ⟨q, hq, happend⟩ := bind_eq_ok_iff.mp hstep
  cases happend
  rw [hget, List.mem_append, hs, hshare x hx q hq]
  simp [or_and_right, exists_or]

end Collect

/-! ## While every task runs -/

/-- The share of an operator while every task runs. -/
structure RunningShare (t : Topology) (target : Target) (q : Plan) : Prop where
  trigger : ∀ a, a ∈ q.trigger ↔ target.triggered = true ∧
    ∃ i ∈ target.operator.tasks, currentAt t i = some a
  waitFor : ∀ a, a ∈ q.waitFor ↔ target.waited = true ∧
    ∃ i ∈ target.operator.tasks, currentAt t i = some a
  finished : q.finished = []
  fullyFinished : q.fullyFinished = []

theorem of_runningShare {t : Topology} {allow : Bool} {target : Target}
    {q : Plan} (hok : runningShare t allow target = .ok q) :
    RunningShare t target q := by
  unfold runningShare at hok
  cases hattempts : (t.tasksOf target.operator.tasks).mapM (attemptOf t) with
  | error e => simp [hattempts, bind, Except.bind] at hok
  | ok attempts =>
    simp only [hattempts, bind, Except.bind, pure, Except.pure,
      Except.ok.injEq] at hok
    have hmem : ∀ a, a ∈ attempts ↔
        ∃ i ∈ target.operator.tasks, currentAt t i = some a := by
      intro a
      rw [mem_of_mapM_eq_ok hattempts]
      constructor
      · rintro ⟨task, htask, ha⟩
        obtain ⟨i, hi, hget⟩ := mem_tasksOf.mp htask
        exact ⟨i, hi, (attemptOf_eq_ok hget).mp ha⟩
      · rintro ⟨i, hi, ha⟩
        have hlt := lt_of_taskIdAt (currentAt_eq_some.mp ha).1
        have hget := Array.getElem?_eq_getElem hlt
        exact ⟨_, mem_tasksOf.mpr ⟨i, hi, hget⟩, (attemptOf_eq_ok hget).mpr ha⟩
    subst hok
    refine ⟨fun a => ?_, fun a => ?_, rfl, rfl⟩ <;> dsimp only <;> split <;>
      rename_i hpart <;> simp [hpart, hmem]

/-! ## The statuses of planned operators -/

/-- The statuses that a plan over some of the operators is made with. -/
def statusesOf (t : Topology) (planned : Operator → Bool) :
    Array RunningStatus :=
  (t.operators.map fun o =>
    if planned o then runningStatus t o
    else (runningStatus t o).clear).toArray

/-- A task of a planned operator whose attempt has not ended. -/
def Runs (t : Topology) (planned : Operator → Bool) (i : TaskIndex) : Prop :=
  t.IsActive i ∧ ∃ o ∈ t.operators, planned o = true ∧ i ∈ o.tasks

section Statuses

variable {t : Topology} {o : Operator}

/-- The status of an operator has the subtasks whose attempts have not
ended. -/
theorem runningStatus_spec (h : t.Sound) (ho : o ∈ t.operators) :
    (runningStatus t o).Sound ∧ (runningStatus t o).length = o.tasks.length ∧
      ∀ k, (runningStatus t o).contains k = true ↔
        ∃ i, o.tasks[k]? = some i ∧ t.IsActive i := by
  have hlt := h.staffed.lt_of_mem_tasks ho
  have hlength : (t.tasksOf o.tasks).length ≤ o.tasks.length :=
    List.length_filterMap_le _ _
  obtain ⟨hsound, hsize, hmem⟩ := RunningStatus.foldl_insert
    (P := fun task : Task => task.attempt.any (!·.isFinished)) (n := 0)
    (RunningStatus.sound_empty o.tasks.length)
    (by rwa [Nat.zero_add, RunningStatus.empty])
  refine ⟨hsound, hsize, fun k => (hmem k).trans ?_⟩
  simp only [RunningStatus.contains_empty, Bool.false_eq_true, false_or,
    Nat.zero_le, true_and, Nat.sub_zero, getElem?_tasksOf hlt,
    Option.bind_eq_some_iff]
  constructor
  · rintro ⟨task, ⟨i, hi, hget⟩, hactive⟩
    exact ⟨i, hi, (isActive_iff hget).mpr hactive⟩
  · rintro ⟨i, hi, hactive⟩
    have hget := Array.getElem?_eq_getElem (hlt i (List.mem_of_getElem? hi))
    exact ⟨_, ⟨i, hi, hget⟩, (isActive_iff hget).mp hactive⟩

/-- The status found for the id of an operator has its tasks that run. -/
theorem exists_statusOf (planned : Operator → Bool) (h : t.Sound)
    (ho : o ∈ t.operators) :
    ∃ s, statusOf t (statusesOf t planned) o.id = .ok s ∧ s.Sound ∧
      s.length = o.tasks.length ∧
      ∀ k, s.contains k = true ↔
        ∃ i, o.tasks[k]? = some i ∧ Runs t planned i := by
  obtain ⟨pos, hpos⟩ := List.mem_iff_getElem?.mp ho
  have hindex := (h.staffed.operatorIndex o.id pos).mpr (by simp [hpos])
  obtain ⟨hsound, hlength, hmem⟩ := runningStatus_spec h ho
  -- A task is in one operator, so it depends on that one alone whether its
  -- mark counts.
  have hruns : ∀ {k i : Nat}, o.tasks[k]? = some i →
      (Runs t planned i ↔ planned o = true ∧ t.IsActive i) := by
    intro k i hk
    have hi := List.mem_of_getElem? hk
    constructor
    · rintro ⟨hactive, x, hx, hplanned, hix⟩
      obtain ⟨id, hid, hv⟩ := (h.staffed.mem_tasks ho).mp hi
      obtain ⟨id', hid', hv'⟩ := (h.staffed.mem_tasks hx).mp hix
      rw [hid, Option.some.injEq] at hid'
      have hsame := h.staffed.operator_inj hx ho (by rw [← hv, ← hv', hid'])
      exact ⟨hsame ▸ hplanned, hactive⟩
    · exact fun ⟨hplanned, hactive⟩ => ⟨hactive, o, ho, hplanned, hi⟩
  refine ⟨if planned o then runningStatus t o else (runningStatus t o).clear,
    ?_, ?_, ?_, ?_⟩
  · simp [statusOf, Topology.operatorAt, hindex, statusAt, statusesOf, hpos]
  · split
    · exact hsound
    · exact hsound.clear
  · split <;> exact hlength
  · intro k
    split
    · rename_i hplanned
      rw [hmem k]
      exact exists_congr fun i => and_congr_right fun hk => by
        rw [hruns hk]
        simp [hplanned]
    · rename_i hplanned
      rw [hsound.contains_clear]
      simp only [Bool.false_eq_true, false_iff, not_exists, not_and]
      exact fun i hk hr => hplanned ((hruns hk).mp hr).1

/-- The status found for a task tells whether it runs. -/
theorem exists_statusOf_task (planned : Operator → Bool) (h : t.Sound)
    {j : Nat} {id : TaskId} (hj : t.taskIdAt j = some id) :
    ∃ s, statusOf t (statusesOf t planned) id.vertex = .ok s ∧
      (s.contains id.subtask = true ↔ Runs t planned j) := by
  obtain ⟨o, ho, hid⟩ := h.owned j id hj
  obtain ⟨s, hs, -, -, hmem⟩ := exists_statusOf planned h ho
  have hmemj := (h.staffed.mem_tasks ho).mpr ⟨id, hj, hid.symm⟩
  obtain ⟨k, hk⟩ := List.mem_iff_getElem?.mp hmemj
  have hidk := h.staffed.taskIdAt_getElem? ho hk
  rw [hj, Option.some.injEq] at hidk
  refine ⟨s, by rw [← hid, hs], ?_⟩
  rw [hidk, hmem k]
  simp [hk]

end Statuses

/-! ## Who has to be triggered -/

section Trigger

variable {t : Topology} {planned : Operator → Bool} {o : Operator} {i : Nat}

/-- An operator is fed as a whole when through one of its inputs some task
that runs feeds all of its tasks, or all tasks that feed them run. -/
theorem mustTrigger_eq_false (h : t.Sound) (ho : o ∈ t.operators) {b : Bool}
    (hok : mustTrigger t (statusesOf t planned) o.inputs = .ok b) :
    b = false ↔ ∃ e ∈ o.inputs, ∃ o' ∈ t.operators, o'.id = e.producer ∧
      ((e.pattern = .allToAll ∧ ∃ j ∈ o'.tasks, Runs t planned j) ∨
        (e.pattern = .pointwise ∧ ∀ j ∈ o'.tasks, Runs t planned j)) := by
  obtain ⟨found, hfound, hok⟩ := bind_eq_ok_iff.mp hok
  cases hok
  simp only [Bool.not_eq_false']
  rw [of_anyM_eq_ok hfound]
  refine exists_congr fun e => and_congr_right fun he => ?_
  obtain ⟨o', ho', hid⟩ := h.staffed.exists_producer ho he
  obtain ⟨s, hs, hsound, hlength, hmem⟩ :=
    exists_statusOf planned h ho'
  rw [← hid, hs]
  have hiff : ∀ P : Operator → Prop, (∃ x ∈ t.operators, x.id = o'.id ∧ P x) ↔
      P o' := by
    intro P
    constructor
    · rintro ⟨x, hx, hxid, hP⟩
      exact h.staffed.operator_inj hx ho' hxid ▸ hP
    · exact fun hP => ⟨o', ho', rfl, hP⟩
  rw [hiff]
  have hsome : (∃ k, s.contains k = true) ↔ ∃ j ∈ o'.tasks, Runs t planned j := by
    simp only [hmem]
    constructor
    · rintro ⟨k, j, hk, hj⟩
      exact ⟨j, List.mem_of_getElem? hk, hj⟩
    · rintro ⟨j, hj, hruns⟩
      obtain ⟨k, hk⟩ := List.mem_iff_getElem?.mp hj
      exact ⟨k, j, hk, hruns⟩
  have hall : (∀ k < s.length, s.contains k = true) ↔
      ∀ j ∈ o'.tasks, Runs t planned j := by
    rw [hlength]
    simp only [hmem]
    constructor
    · intro hk j hj
      obtain ⟨k, hkj⟩ := List.mem_iff_getElem?.mp hj
      obtain ⟨j', hj', hruns⟩ := hk k (List.getElem?_eq_some_iff.mp hkj).1
      rw [hkj, Option.some.injEq] at hj'
      exact hj' ▸ hruns
    · exact fun hj k hk => ⟨_, List.getElem?_eq_getElem hk,
        hj _ (List.getElem_mem hk)⟩
  -- One running producer feeds all readers of a fully wired edge. Along a
  -- pointwise edge it takes all of them.
  cases e.pattern with
  | allToAll => simp [bind, Except.bind, pure, Except.pure,
      hsound.cardinality_pos, hsome]
  | pointwise => simp [bind, Except.bind, pure, Except.pure,
      hsound.allRunning_iff, hall]

/-- The inputs of a task with the groups they are read from. -/
theorem mem_zip_groupsOf (h : t.Sound) {e : JobEdge} {group : PartitionGroup} :
    (e, group) ∈ o.inputs.zip (t.groupsOf (t.consumedBy i)) ↔
      ∃ k g : Nat, o.inputs[k]? = some e ∧ (t.consumedBy i)[k]? = some g ∧
        t.groups[g]? = some group := by
  have hgroups : ∀ g ∈ t.consumedBy i, ∃ group, t.groups[g]? = some group :=
    fun g hg => ⟨_, Array.getElem?_eq_getElem
      (h.wired.grouped.lt_of_mem_consumedBy hg)⟩
  simp only [List.mem_iff_getElem?, List.getElem?_zip_eq_some, groupsOf,
    getElem?_filterMap hgroups, Option.bind_eq_some_iff, exists_and_left]

/-- The search in one group comes to the tasks whose partitions are in
it. -/
theorem anyM_producers_eq_true (h : t.Sound) {g : Nat} {group : PartitionGroup}
    (hgroup : t.groups[g]? = some group) {b : Bool}
    (hok : (t.tasksOf ((t.partitionsOf group.partitions).map
      (·.producer))).anyM (fun producer => do
        let status ← statusOf t (statusesOf t planned) producer.id.vertex
        return status.contains producer.id.subtask) = .ok b) :
    b = true ↔ ∃ p ∈ t.partitionsIn g, ∃ x, t.outputAt p = some x ∧
      Runs t planned x.producer := by
  have hproducers : ∀ {i : Nat}, (∃ p ∈ t.partitionsIn g, ∃ x,
      t.outputAt p = some x ∧ x.producer = i) ↔
        i ∈ (t.partitionsOf group.partitions).map (·.producer) := by
    intro i
    simp only [partitionsIn, hgroup, Option.map_some, Option.getD_some,
      outputAt, Option.map_eq_some_iff, List.mem_map, partitionsOf,
      List.mem_filterMap]
    constructor
    · rintro ⟨p, hp, -, ⟨part, hpart, rfl⟩, rfl⟩
      exact ⟨part, ⟨p, hp, hpart⟩, rfl⟩
    · rintro ⟨part, ⟨p, hp, hpart⟩, rfl⟩
      exact ⟨p, hp, _, ⟨part, hpart, rfl⟩, rfl⟩
  -- What the step says about a producer is whether it runs.
  have hstep : ∀ {i : Nat} {producer : Task} {c : Bool},
      t.tasks[i]? = some producer →
      (do
        let status ← statusOf t (statusesOf t planned) producer.id.vertex
        return status.contains producer.id.subtask) = Except.ok c →
      (c = true ↔ Runs t planned i) := by
    intro i producer c hget hc
    have hid := taskIdAt_of_getElem? hget
    obtain ⟨s, hs, hruns⟩ := exists_statusOf_task planned h hid
    rw [hs] at hc
    cases hc
    exact hruns
  constructor
  · rintro rfl
    obtain ⟨producer, hmem, hc⟩ := exists_of_anyM_eq_ok hok
    obtain ⟨i, hi, hget⟩ := mem_tasksOf.mp hmem
    obtain ⟨p, hp, x, hx, rfl⟩ := hproducers.mpr hi
    exact ⟨p, hp, x, hx, (hstep hget hc).mp rfl⟩
  · rintro ⟨p, hp, x, hx, hruns⟩
    have hget := Array.getElem?_eq_getElem (lt_of_isActive hruns.1)
    have hmem := mem_tasksOf.mpr ⟨_, hproducers.mp ⟨p, hp, x, hx, rfl⟩, hget⟩
    by_contra hb
    rw [Bool.not_eq_true] at hb
    have hc := of_anyM_eq_ok_false (hb ▸ hok) _ hmem
    exact Bool.false_ne_true ((hstep hget hc).mpr hruns)

/-- The search among the inputs of a task comes to the tasks that feed it
through pointwise wiring. -/
theorem hasRunningPredecessor_eq_true (h : t.Sound) (ho : o ∈ t.operators)
    (hi : i ∈ o.tasks) {task : Task} (htask : t.tasks[i]? = some task)
    {b : Bool} (hok : hasRunningPredecessor t (statusesOf t planned) o.inputs
      task = .ok b) :
    b = true ↔ ∃ g ∈ t.consumedBy i, ∃ ex, t.exchangeAt g = some ex ∧
      ex.pattern = .pointwise ∧ ∃ p ∈ t.partitionsIn g, ∃ x,
        t.outputAt p = some x ∧ Runs t planned x.producer := by
  have hconsumed : task.consumed = t.consumedBy i := by
    simp [consumedBy, htask]
  -- The groups a task reads are in the order of the inputs of its operator.
  have hplace : ∀ k g : Nat, (t.consumedBy i)[k]? = some g →
      (o.inputs[k]?.map fun e => some e.exchange) = some (t.exchangeAt g) := by
    intro k g hg
    have hexchange := congrArg (·[k]?) (h.exchanges_of_mem ho hi)
    simpa only [List.getElem?_map, hg, Option.map_some] using hexchange.symm
  rw [hasRunningPredecessor, hconsumed] at hok
  constructor
  · rintro rfl
    obtain ⟨⟨e, group⟩, hmem, hfound⟩ := exists_of_anyM_eq_ok hok
    obtain ⟨k, g, he, hg, hgroup⟩ := (mem_zip_groupsOf h).mp hmem
    have hexchange := hplace k g hg
    rw [he, Option.map_some, Option.some.injEq] at hexchange
    dsimp only at hfound
    split at hfound
    · cases hfound
    · rename_i hpattern
      exact ⟨g, List.mem_of_getElem? hg, e.exchange, hexchange.symm,
        not_not.mp hpattern, (anyM_producers_eq_true h hgroup hfound).mp rfl⟩
  · rintro ⟨g, hg, ex, hex, hpattern, hruns⟩
    obtain ⟨k, hk⟩ := List.mem_iff_getElem?.mp hg
    obtain ⟨e, he, hexchange⟩ := Option.map_eq_some_iff.mp (hplace k g hk)
    rw [hex, Option.some.injEq] at hexchange
    have hgroup := Array.getElem?_eq_getElem
      (h.wired.grouped.lt_of_mem_consumedBy hg)
    by_contra hb
    rw [Bool.not_eq_true] at hb
    have hfound := of_anyM_eq_ok_false (hb ▸ hok) _
      ((mem_zip_groupsOf h).mpr ⟨k, g, he, hk, hgroup⟩)
    dsimp only at hfound
    rw [if_neg (by rw [not_not, ← hpattern, ← hexchange]; rfl)] at hfound
    exact Bool.false_ne_true
      ((anyM_producers_eq_true h hgroup hfound).mpr hruns)

/-- Of an operator that is fed as a whole every task is fed. -/
theorem exists_feeds_of_mustTrigger (h : t.Whole) (ho : o ∈ t.operators)
    (hi : i ∈ o.tasks)
    (hmust : mustTrigger t (statusesOf t planned) o.inputs = .ok false) :
    ∃ j kind, t.Feeds j i kind ∧ Runs t planned j := by
  obtain ⟨e, he, o', ho', hid, ⟨hpattern, j, hj, hruns⟩ | ⟨-, hall⟩⟩ :=
    (mustTrigger_eq_false h.toSound ho hmust).mp rfl
  · exact ⟨j, _, h.feeds_of_shuffle ho he ho' hid hpattern hi hj, hruns⟩
  · obtain ⟨j, hj, hfeeds⟩ := h.exists_feeds ho he ho' hid hi
    exact ⟨j, _, hfeeds, hall j hj⟩

/-- What is asked of the operator and of the task comes to whether a task
that runs feeds the task. -/
theorem fed_iff (h : t.Whole) (ho : o ∈ t.operators) (hi : i ∈ o.tasks)
    {task : Task} (htask : t.tasks[i]? = some task) {must has : Bool}
    (hmust : mustTrigger t (statusesOf t planned) o.inputs = .ok must)
    (hhas : hasRunningPredecessor t (statusesOf t planned) o.inputs task =
      .ok has) :
    (∃ j kind, t.Feeds j i kind ∧ Runs t planned j) ↔
      must = false ∨ has = true := by
  constructor
  · rintro ⟨-, -, ⟨g, hg, p, hp, x, hx, rfl, rfl⟩, hruns⟩
    obtain ⟨e, hedge, hexchange, -, ⟨id, hid, hvertex⟩, -⟩ :=
      h.edge_of_reading hg hp hx
    have hmem := List.mem_map_of_mem (f := t.exchangeAt) hg
    rw [h.exchanges_of_mem ho hi, hexchange] at hmem
    obtain ⟨e', he, heq⟩ := List.mem_map.mp hmem
    rw [Option.some.injEq] at heq
    have hedge' := (h.edge_of_mem (List.mem_flatMap.mpr ⟨o, ho, he⟩)).1
    cases h.graph.edge_inj hedge' hedge (congrArg Exchange.dataSet heq)
    -- A fully wired input is asked about as a whole, a pointwise one by the
    -- groups that the task reads.
    cases hpattern : e.pattern with
    | allToAll =>
      obtain ⟨o', ho', hid'⟩ := h.staffed.exists_producer ho he
      have hmem' := (h.staffed.mem_tasks ho').mpr
        ⟨id, hid, hvertex.trans hid'.symm⟩
      exact .inl ((mustTrigger_eq_false h.toSound ho hmust).mpr
        ⟨e, he, o', ho', hid', .inl ⟨hpattern, _, hmem', hruns⟩⟩)
    | pointwise =>
      exact .inr ((hasRunningPredecessor_eq_true h.toSound ho hi htask
        hhas).mpr ⟨g, hg, _, hexchange, hpattern, p, hp, x, hx, hruns⟩)
  · rintro (rfl | rfl)
    · exact exists_feeds_of_mustTrigger h ho hi hmust
    · obtain ⟨g, hg, -, -, -, p, hp, x, hx, hruns⟩ :=
        (hasRunningPredecessor_eq_true h.toSound ho hi htask hhas).mp rfl
      exact ⟨_, _, ⟨g, hg, p, hp, x, hx, rfl, rfl⟩, hruns⟩

end Trigger

/-! ## After some tasks have finished -/

/-- No task that runs feeds a task. -/
def IsCutOff (t : Topology) (planned : Operator → Bool) (i : TaskIndex) :
    Prop :=
  ¬ ∃ j kind, t.Feeds j i kind ∧ Runs t planned j

/-- The share of an operator after some tasks have finished. -/
structure FinishedShare (t : Topology) (planned : Operator → Bool)
    (o : Operator) (q : Plan) : Prop where
  trigger : ∀ a, a ∈ q.trigger ↔ ∃ i ∈ o.tasks, currentAt t i = some a ∧
    t.IsActive i ∧ IsCutOff t planned i
  waitFor : ∀ a, a ∈ q.waitFor ↔
    ∃ i ∈ o.tasks, currentAt t i = some a ∧ t.IsActive i
  finished : ∀ a, a ∈ q.finished ↔
    ∃ i ∈ o.tasks, currentAt t i = some a ∧ ¬ t.IsActive i
  fullyFinished : ∀ v, v ∈ q.fullyFinished ↔
    v = o.id ∧ ∀ i ∈ o.tasks, ¬ t.IsActive i

/-- What the part of a task has to say of it. -/
structure Plays (t : Topology) (planned : Operator → Bool) (i : TaskIndex)
    (r : Role) : Prop where
  attempt : currentAt t i = some r.attempt
  runs : r.runs = true ↔ t.IsActive i
  triggered : r.triggered = true ↔ t.IsActive i ∧ IsCutOff t planned i

section Finished

variable {t : Topology} {planned : Operator → Bool} {o : Operator} {i : Nat}

/-- The part of a task in the share of its operator. -/
theorem plays_of_roleOf (h : t.Whole) (ho : o ∈ t.operators)
    (hi : i ∈ o.tasks) {task : Task} (htask : t.tasks[i]? = some task)
    {must runs : Bool} (hruns : runs = true ↔ t.IsActive i)
    (hmust : runs = true → mustTrigger t (statusesOf t planned) o.inputs =
      .ok must) {r : Role}
    (hok : roleOf t (statusesOf t planned) o must runs task = .ok r) :
    Plays t planned i r := by
  obtain ⟨attempt, hattempt, hrest⟩ := bind_eq_ok_iff.mp hok
  have hcurrent := (attemptOf_eq_ok htask).mp hattempt
  dsimp only at hrest
  -- Only a running task of an operator that is not fed as a whole is asked for
  -- what feeds it.
  split at hrest
  · rename_i hask
    rw [Bool.and_eq_true] at hask
    obtain ⟨rfl, rfl⟩ := hask
    obtain ⟨triggered, htriggered, hrole⟩ := bind_eq_ok_iff.mp hrest
    obtain ⟨has, hhas, rfl⟩ : ∃ has, hasRunningPredecessor t
        (statusesOf t planned) o.inputs task = .ok has ∧ (!has) = triggered := by
      cases hhas : hasRunningPredecessor t (statusesOf t planned) o.inputs
        task with
      | error e => simp [hhas] at htriggered
      | ok has => exact ⟨has, rfl, by simpa [hhas] using htriggered⟩
    cases hrole
    refine ⟨hcurrent, hruns, ?_⟩
    rw [IsCutOff, fed_iff h ho hi htask (hmust rfl) hhas, ← hruns]
    simp
  · rename_i hask
    cases hrest
    refine ⟨hcurrent, hruns, ?_⟩
    simp only [Bool.false_eq_true, false_iff, not_and]
    intro hactive
    have hfalse : must = false := by simpa [hruns.mpr hactive] using hask
    rw [IsCutOff, not_not]
    exact exists_feeds_of_mustTrigger h ho hi
      (hfalse ▸ hmust (hruns.mpr hactive))

theorem noneRunning_runningStatus (h : t.Sound) (ho : o ∈ t.operators) :
    (runningStatus t o).noneRunning = true ↔ ∀ i ∈ o.tasks, ¬ t.IsActive i := by
  obtain ⟨hsound, -, hcontains⟩ := runningStatus_spec h ho
  simp only [hsound.noneRunning_iff, ← Bool.not_eq_true, hcontains,
    not_exists, not_and]
  constructor
  · intro hk i hi
    obtain ⟨k, hki⟩ := List.mem_iff_getElem?.mp hi
    exact hk k i hki
  · exact fun hi k i hki => hi i (List.mem_of_getElem? hki)

/-- The parts of the tasks of an operator, picked by what holds of the
tasks. -/
theorem mem_roles (h : t.Whole) (ho : o ∈ t.operators) {must : Bool}
    (hmust : (runningStatus t o).noneRunning = false →
      mustTrigger t (statusesOf t planned) o.inputs = .ok must)
    {roles : List Role}
    (hroles : ((t.tasksOf o.tasks).zipIdx.mapM fun (task, subtask) =>
      roleOf t (statusesOf t planned) o must
        ((runningStatus t o).contains subtask) task) = .ok roles)
    {pick : Role → Bool} {P : TaskIndex → Prop}
    (hpick : ∀ i r, Plays t planned i r → (pick r = true ↔ P i))
    (a : TaskAttempt) :
    a ∈ (roles.filter pick).map (·.attempt) ↔
      ∃ i ∈ o.tasks, currentAt t i = some a ∧ P i := by
  obtain ⟨-, -, hcontains⟩ := runningStatus_spec h.toSound ho
  have hlt := h.staffed.lt_of_mem_tasks ho
  -- Whether the operator is fed as a whole is known once some of its tasks
  -- runs. Otherwise no part depends on it.
  have hplays : ∀ {k i : Nat} {task : Task} {r : Role},
      o.tasks[k]? = some i → t.tasks[i]? = some task →
      roleOf t (statusesOf t planned) o must
        ((runningStatus t o).contains k) task = .ok r → Plays t planned i r := by
    intro k i task r hk htask hrole
    have hi := List.mem_of_getElem? hk
    have hruns : (runningStatus t o).contains k = true ↔ t.IsActive i := by
      rw [hcontains]
      simp [hk]
    refine plays_of_roleOf h ho hi htask hruns (fun hc => hmust ?_) hrole
    rw [← Bool.not_eq_true, noneRunning_runningStatus h.toSound ho]
    exact fun hnone => hnone i hi (hruns.mp hc)
  constructor
  · intro ha
    obtain ⟨r, hr, rfl⟩ := List.mem_map.mp ha
    obtain ⟨hr, hpicked⟩ := List.mem_filter.mp hr
    obtain ⟨⟨task, k⟩, hx, hrole⟩ := (mem_of_mapM_eq_ok hroles).mp hr
    obtain ⟨i, hk, htask⟩ := (mem_zipIdx_tasksOf hlt).mp hx
    have hplay := hplays hk htask hrole
    exact ⟨i, List.mem_of_getElem? hk, hplay.attempt,
      (hpick i r hplay).mp hpicked⟩
  · rintro ⟨i, hi, ha, hP⟩
    obtain ⟨k, hk⟩ := List.mem_iff_getElem?.mp hi
    have htask := Array.getElem?_eq_getElem (hlt i hi)
    obtain ⟨r, hr, hrole⟩ := exists_of_mapM_eq_ok hroles
      ((mem_zipIdx_tasksOf hlt).mpr ⟨i, hk, htask⟩)
    have hplay := hplays hk htask hrole
    have heq := hplay.attempt
    rw [ha, Option.some.injEq] at heq
    exact List.mem_map.mpr
      ⟨r, List.mem_filter.mpr ⟨hr, (hpick i r hplay).mpr hP⟩, heq.symm⟩

theorem of_finishedShare (h : t.Whole) (ho : o ∈ t.operators) {allow : Bool}
    {q : Plan} (hok : finishedShare t allow (statusesOf t planned) o
      (runningStatus t o) = .ok q) : FinishedShare t planned o q := by
  -- Both branches go through the parts of the tasks. They differ in whether
  -- the vertex counts as fully finished.
  obtain ⟨must, roles, hmust, hroles, hq⟩ : ∃ must roles,
      ((runningStatus t o).noneRunning = false →
        mustTrigger t (statusesOf t planned) o.inputs = .ok must) ∧
      ((t.tasksOf o.tasks).zipIdx.mapM fun (task, subtask) =>
        roleOf t (statusesOf t planned) o must
          ((runningStatus t o).contains subtask) task) = .ok roles ∧
      q = {
        trigger := (roles.filter (·.triggered)).map (·.attempt)
        waitFor := (roles.filter (·.runs)).map (·.attempt)
        commitTo := ((roles.filter (·.runs)).map (·.attempt)).map (·.task)
        finished := (roles.filter (!·.runs)).map (·.attempt)
        fullyFinished :=
          if (runningStatus t o).noneRunning then [o.id] else []
        mayHaveFinished := allow } := by
    dsimp only [finishedShare] at hok
    split at hok
    · rename_i hnone
      obtain ⟨must, -, hrest⟩ := bind_eq_ok_iff.mp hok
      obtain ⟨roles, hroles, hshare⟩ := bind_eq_ok_iff.mp hrest
      cases hshare
      exact ⟨must, roles, by simp [hnone], hroles, by simp [hnone]⟩
    · rename_i hsome
      obtain ⟨must, hmust, hrest⟩ := bind_eq_ok_iff.mp hok
      obtain ⟨roles, hroles, hshare⟩ := bind_eq_ok_iff.mp hrest
      cases hshare
      exact ⟨must, roles, fun _ => hmust, hroles, by simp [hsome]⟩
  subst hq
  refine ⟨mem_roles h ho hmust hroles fun i r hr => hr.triggered,
    mem_roles h ho hmust hroles fun i r hr => hr.runs,
    mem_roles h ho hmust hroles fun i r hr => ?_, fun v => ?_⟩
  · rw [← hr.runs, Bool.not_eq_true']
    simp
  · rw [← noneRunning_runningStatus h.toSound ho]
    dsimp only
    split
    · rename_i hnone
      simp [hnone]
    · rename_i hsome
      simp [hsome]

end Finished

end ControlPlane.Checkpoint
