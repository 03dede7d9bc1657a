import Mathlib
import ControlPlane.Proofs.Checkpoint.Plan

/-!
# Where barriers enter

Every task that a plan waits for gets the barrier: from the tasks that feed it
as long as one of them runs, and otherwise directly. Following the tasks that
feed it back, from operator to earlier operator, leads from each of them to
one that is triggered.
-/

namespace ControlPlane.Checkpoint

open ControlPlane.Topology

/-- The acknowledgement of the task at a position is waited for. -/
def Waits (t : Topology) (p : Plan) (i : TaskIndex) : Prop :=
  ∃ id, t.taskIdAt i = some id ∧ p.isWaitedFor id = true

/-- The task at a position receives the barrier directly. -/
def Triggers (t : Topology) (p : Plan) (i : TaskIndex) : Prop :=
  ∃ id, t.taskIdAt i = some id ∧ p.isTriggered id = true

/-- The barrier is passed on between two tasks that are waited for. -/
def Passes (t : Topology) (p : Plan) (i j : TaskIndex) : Prop :=
  Waits t p i ∧ Waits t p j ∧ ∃ kind, t.Feeds i j kind

section Barriers

variable {t : Topology} {scope : Scope} {allow : Bool} {p : Plan}

/-- A task is in a list of attempts if its current attempt is. -/
theorem exists_any_iff (h : t.Sound) {attempts : List TaskAttempt}
    {P : VertexId → Prop} {Q : TaskIndex → Prop}
    (hmem : ∀ a, a ∈ attempts ↔
      P a.task.vertex ∧ ∃ i, currentAt t i = some a ∧ Q i) {i : Nat} :
    (∃ id, t.taskIdAt i = some id ∧ attempts.any (·.task = id) = true) ↔
      (∃ id, t.taskIdAt i = some id ∧ P id.vertex) ∧
        (∃ a, currentAt t i = some a) ∧ Q i := by
  simp only [List.any_eq_true, decide_eq_true_eq]
  constructor
  · rintro ⟨-, hid, a, ha, rfl⟩
    obtain ⟨hP, j, hj, hQ⟩ := (hmem a).mp ha
    have hij : j = i := h.wired.indexed.tasks.inj (currentAt_eq_some.mp hj).1 hid
    exact ⟨⟨_, hid, hP⟩, ⟨a, hij ▸ hj⟩, hij ▸ hQ⟩
  · rintro ⟨⟨id, hid, hP⟩, ⟨a, ha⟩, hQ⟩
    have htask := (currentAt_eq_some.mp ha).1
    rw [hid, Option.some.injEq] at htask
    exact ⟨id, hid, a, (hmem a).mpr ⟨htask ▸ hP, i, ha, hQ⟩, htask.symm⟩

/-- What carries the barrier through a plan: the tasks that pass it on are
those waited for, and those to which none of them passes it on are
triggered. -/
structure Injects (t : Topology) (scope : Scope) (p : Plan) : Prop where
  waits : ∀ i, Waits t p i ↔ Forwards t scope i
  triggers : ∀ i, Triggers t p i ↔ Forwards t scope i ∧
    ¬ ∃ j kind, t.Feeds j i kind ∧ Forwards t scope j

theorem AfterFinish.injects (h : t.Sound) (hp : AfterFinish t scope p) :
    Injects t scope p where
  waits := by
    intro i
    refine (exists_any_iff h hp.waitFor).trans ?_
    constructor
    · exact fun ⟨hplanned, _, hactive⟩ => ⟨hactive, hplanned⟩
    · exact fun ⟨hactive, hplanned⟩ =>
        ⟨hplanned, exists_currentAt_of_isActive hactive, hactive⟩
  triggers := by
    intro i
    refine (exists_any_iff h hp.trigger).trans ?_
    constructor
    · exact fun ⟨hplanned, _, hactive, hcut⟩ => ⟨⟨hactive, hplanned⟩, hcut⟩
    · exact fun ⟨⟨hactive, hplanned⟩, hcut⟩ =>
        ⟨hplanned, exists_currentAt_of_isActive hactive, hactive, hcut⟩

/-- Of a job that is waited for as a whole, every task runs. -/
theorem WhileRunning.forwards_iff (h : t.Sound) (hp : WhileRunning t .job p)
    (hstarted : ∀ i < t.tasks.size, ∃ a, currentAt t i = some a)
    (hrunning : ∀ a ∈ p.waitFor, t.InState a.task .running) {i : Nat} :
    Forwards t .job i ↔ i < t.tasks.size := by
  refine ⟨fun hi => lt_of_isActive hi.1, fun hi => ?_⟩
  obtain ⟨a, ha⟩ := hstarted i hi
  have hid := (currentAt_eq_some.mp ha).1
  have hstate := hrunning a ((hp.waitFor a).mpr ⟨trivial, i, ha⟩)
  rw [h.wired.indexed.inState_iff hid] at hstate
  exact ⟨isActive_of_state hstate (by decide) (by decide), _, hid, trivial⟩

/-- While every task runs, a plan for the whole job lists what it would list
if some task had finished. -/
theorem WhileRunning.afterFinish (h : t.Whole) (hp : WhileRunning t .job p)
    (hstarted : ∀ i < t.tasks.size, ∃ a, currentAt t i = some a)
    (hrunning : ∀ a ∈ p.waitFor, t.InState a.task .running) :
    AfterFinish t .job p := by
  have hforwards := fun i =>
    hp.forwards_iff h.toSound hstarted hrunning (i := i)
  have hactive : ∀ {i : Nat}, i < t.tasks.size → t.IsActive i :=
    fun hi => ((hforwards _).mpr hi).1
  have hlt : ∀ {i : Nat} {a : TaskAttempt}, currentAt t i = some a →
      i < t.tasks.size := fun ha => lt_of_taskIdAt (currentAt_eq_some.mp ha).1
  refine ⟨fun a => ?_, fun a => ?_, fun a => ?_, fun v => ?_⟩
  · have hplanned : Planned t.graph .job a.task.vertex := trivial
    rw [hp.trigger, and_iff_right hplanned, ← exists_and_left]
    refine exists_congr fun i => ?_
    rw [and_comm]
    refine and_congr_right fun ha => ?_
    -- Every feeder runs, so it hands the barrier on.
    have hfed : (∃ j kind, t.Feeds j i kind ∧ Forwards t .job j) ↔
        ∃ j kind, t.Feeds j i kind := by
      refine exists₂_congr fun j kind => and_iff_left_of_imp fun hf => ?_
      exact (hforwards j).mpr (h.lt_of_taskArc (.inl ⟨kind, hf⟩)).1
    rw [and_iff_right (hactive (hlt ha)), hfed,
      h.exists_feeds_iff (currentAt_eq_some.mp ha).1, not_exists]
    rfl
  · rw [hp.waitFor]
    exact and_congr_right fun _ => exists_congr fun i =>
      (and_iff_left_of_imp fun ha => hactive (hlt ha)).symm
  · rw [hp.finished]
    -- Every task is active, so nothing is listed as finished.
    refine iff_of_false List.not_mem_nil ?_
    rintro ⟨-, i, ha, hnot⟩
    exact hnot (hactive (hlt ha))
  · rw [hp.fullyFinished]
    refine iff_of_false List.not_mem_nil ?_
    rintro ⟨-, o, ho, -, hnone⟩
    obtain ⟨i, hi⟩ := List.exists_mem_of_ne_nil _ (h.tasks_ne_nil ho)
    obtain ⟨id, hid, -⟩ := (h.staffed.mem_tasks ho).mp hi
    exact hnone i hi (hactive (lt_of_taskIdAt hid))

/-- Every task waited for gets the barrier, from one that is triggered. -/
theorem Injects.exists_triggered (h : t.Whole) (hp : Injects t scope p)
    {i : Nat} (hi : Waits t p i) :
    ∃ j, Triggers t p j ∧ Relation.ReflTransGen (Passes t p) j i := by
  -- Going back along what feeds a task comes to an end.
  induction i using h.wellFounded_feeds.induction with
  | _ i ih =>
    by_cases hfed : ∃ j kind, t.Feeds j i kind ∧ Forwards t scope j
    · obtain ⟨j, kind, hfeeds, hj⟩ := hfed
      have hwaits := (hp.waits j).mpr hj
      obtain ⟨k, hk, hpath⟩ := ih j ⟨kind, hfeeds⟩ hwaits
      exact ⟨k, hk, hpath.tail ⟨hwaits, hi, kind, hfeeds⟩⟩
    · exact ⟨i, (hp.triggers i).mpr ⟨(hp.waits i).mp hi, hfed⟩, .refl⟩

end Barriers

/-- In a plan for the whole job, or after some task has finished, exactly
those tasks are triggered among the ones waited for that no running task of
the planned vertices feeds; and from a triggered task the barrier reaches
each of them. -/
theorem barriers_of_plan {t : Topology} (h : t.Reachable) {scope : Scope}
    {allow : Bool} {p : Plan} (hok : plan t allow scope = .ok p)
    (hscope : scope = .job ∨ SomeFinished t scope) :
    (∀ i, Waits t p i → (Triggers t p i ↔
        ¬ ∃ j kind, t.Feeds j i kind ∧ Forwards t scope j)) ∧
      ∀ i, Waits t p i →
        ∃ j, Triggers t p j ∧ Relation.ReflTransGen (Passes t p) j i := by
  obtain ⟨hstarted, hrunning, hcases⟩ := of_plan h.whole hok
  have hp : Injects t scope p := by
    rcases hcases with ⟨-, hp⟩ | ⟨hnone, hp⟩
    · exact hp.injects h.whole.toSound
    · obtain rfl := hscope.resolve_right hnone
      exact (hp.afterFinish h.whole hstarted hrunning).injects h.whole.toSound
  refine ⟨fun i hi => ?_, fun i hi => hp.exists_triggered h.whole hi⟩
  rw [hp.triggers, and_iff_right ((hp.waits i).mp hi)]

/-- Nothing feeds the sinks any more when the sources have finished, so both
are triggered. -/
theorem barriers_finishedSample :
    ∃ p, plan finishedSample true (.rescale sampleSink [sampleSource]) = .ok p ∧
      p.trigger = [⟨⟨sampleSink, 0⟩, 0⟩, ⟨⟨sampleSink, 1⟩, 0⟩] ∧
      (∀ i, Waits finishedSample p i → (Triggers finishedSample p i ↔
        ¬ ∃ j kind, finishedSample.Feeds j i kind ∧
          Forwards finishedSample (.rescale sampleSink [sampleSource]) j)) ∧
      ∀ i, Waits finishedSample p i → ∃ j, Triggers finishedSample p j ∧
        Relation.ReflTransGen (Passes finishedSample p) j i := by
  have hreachable : finishedSample.Reachable := reachable_sampleIn _
  have hid : finishedSample.taskIdAt 0 = some ⟨sampleSource, 0⟩ := by
    decide +kernel
  have hfinished : SomeFinished finishedSample
      (.rescale sampleSink [sampleSource]) :=
    ⟨_, trivial, (hreachable.whole.wired.indexed.inState_iff hid).mpr
      (by decide +kernel)⟩
  exact ⟨_, plan_finishedSample, rfl,
    barriers_of_plan hreachable plan_finishedSample (.inr hfinished)⟩

end ControlPlane.Checkpoint
