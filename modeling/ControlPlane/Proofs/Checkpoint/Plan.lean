import Mathlib
import ControlPlane.Proofs.Checkpoint.Scope
import ControlPlane.Proofs.Checkpoint.Shares

/-!
# What a plan lists

A plan is made in one of two ways, by whether some task has finished that
decides about the scope. Either way the tasks it lists are described here by
their vertex, by whether they run and by who feeds them; the loops that put
the plan together are not mentioned any more.
-/

namespace ControlPlane.Checkpoint

open ControlPlane.Topology

/-- A task of a planned vertex whose attempt has not ended. It passes the
barrier on to the tasks that it feeds. -/
def Forwards (t : Topology) (scope : Scope) (i : TaskIndex) : Prop :=
  t.IsActive i ∧
    ∃ id, t.taskIdAt i = some id ∧ Planned t.graph scope id.vertex

/-- A plan made while every task counts as running. -/
structure WhileRunning (t : Topology) (scope : Scope) (p : Plan) : Prop where
  trigger : ∀ a, a ∈ p.trigger ↔
    Entered t.graph scope a.task.vertex ∧ ∃ i, currentAt t i = some a
  waitFor : ∀ a, a ∈ p.waitFor ↔
    Awaited t.graph scope a.task.vertex ∧ ∃ i, currentAt t i = some a
  finished : p.finished = []
  fullyFinished : p.fullyFinished = []

/-- A plan made after some tasks have finished. -/
structure AfterFinish (t : Topology) (scope : Scope) (p : Plan) : Prop where
  trigger : ∀ a, a ∈ p.trigger ↔ Planned t.graph scope a.task.vertex ∧
    ∃ i, currentAt t i = some a ∧ t.IsActive i ∧
      ¬ ∃ j kind, t.Feeds j i kind ∧ Forwards t scope j
  waitFor : ∀ a, a ∈ p.waitFor ↔ Planned t.graph scope a.task.vertex ∧
    ∃ i, currentAt t i = some a ∧ t.IsActive i
  finished : ∀ a, a ∈ p.finished ↔ Planned t.graph scope a.task.vertex ∧
    ∃ i, currentAt t i = some a ∧ ¬ t.IsActive i
  fullyFinished : ∀ v, v ∈ p.fullyFinished ↔ Planned t.graph scope v ∧
    ∃ o ∈ t.operators, o.id = v ∧ ∀ i ∈ o.tasks, ¬ t.IsActive i

section Loops

variable {t : Topology} {scope : Scope} {allow : Bool} {p : Plan}

/-- Attempts of the tasks of some operators are attempts of tasks of their
vertices. -/
theorem exists_attempt_iff (h : t.Sound) {P : VertexId → Prop}
    {Q : TaskIndex → Prop} {a : TaskAttempt} :
    (∃ o ∈ t.operators, P o.id ∧ ∃ i ∈ o.tasks, currentAt t i = some a ∧ Q i) ↔
      P a.task.vertex ∧ ∃ i, currentAt t i = some a ∧ Q i := by
  constructor
  · rintro ⟨o, ho, hP, i, hi, ha, hQ⟩
    obtain ⟨id, hid, hv⟩ := (h.staffed.mem_tasks ho).mp hi
    have hida := (currentAt_eq_some.mp ha).1
    rw [hid, Option.some.injEq] at hida
    exact ⟨by rwa [← hida, hv], i, ha, hQ⟩
  · rintro ⟨hP, i, ha, hQ⟩
    have hid := (currentAt_eq_some.mp ha).1
    obtain ⟨o, ho, hv⟩ := h.owned i _ hid
    exact ⟨o, ho, hv ▸ hP, i,
      (h.staffed.mem_tasks ho).mpr ⟨_, hid, hv.symm⟩, ha, hQ⟩

theorem of_planWhileRunning (h : t.Sound) {f : Operator → Target}
    (hf : ∀ o ∈ t.operators, Targets t scope o (f o))
    (hok : planWhileRunning t allow (t.operators.map f) = .ok p) :
    WhileRunning t scope p := by
  have hshares : ∀ target ∈ t.operators.map f, ∀ q,
      runningShare t allow target = .ok q → RunningShare t target q :=
    fun _ _ _ hq => of_runningShare hq
  -- The operator of a task is picked by the vertex of the task.
  have hparts : ∀ {part : Target → Bool} {P : VertexId → Prop},
      (∀ o ∈ t.operators, part (f o) = true ↔ P o.id) → ∀ a,
      (∃ target ∈ t.operators.map f, part target = true ∧
        ∃ i ∈ target.operator.tasks, currentAt t i = some a) ↔
        P a.task.vertex ∧ ∃ i, currentAt t i = some a := by
    intro part P hP a
    have hiff := exists_attempt_iff h (P := P) (Q := fun _ => True) (a := a)
    simp only [and_true] at hiff
    rw [← hiff]
    simp only [List.mem_map, exists_exists_and_eq_and]
    refine exists_congr fun o => and_congr_right fun ho => ?_
    rw [hP o ho, (hf o ho).operator]
  refine ⟨fun a => ?_, fun a => ?_, ?_, ?_⟩
  · rw [mem_of_shares Plan.trigger (fun _ _ => rfl) rfl
      (fun x hx q hq => (hshares x hx q hq).trigger) hok a]
    exact hparts (fun o ho => (hf o ho).triggered) a
  · rw [mem_of_shares Plan.waitFor (fun _ _ => rfl) rfl
      (fun x hx q hq => (hshares x hx q hq).waitFor) hok a]
    exact hparts (fun o ho => (hf o ho).waited) a
  · rw [List.eq_nil_iff_forall_not_mem]
    intro a
    rw [mem_of_shares Plan.finished (R := fun _ _ => False)
      (fun _ _ => rfl) rfl
      (fun x hx q hq => by simp [(hshares x hx q hq).finished]) hok a]
    simp
  · rw [List.eq_nil_iff_forall_not_mem]
    intro v
    rw [mem_of_shares Plan.fullyFinished (R := fun _ _ => False)
      (fun _ _ => rfl) rfl
      (fun x hx q hq => by simp [(hshares x hx q hq).fullyFinished]) hok v]
    simp

/-- The operators that are not marked have no share, and their tasks do not
run for the others. -/
theorem planAfterFinish_eq (f : Operator → Bool) :
    planAfterFinish t allow (t.operators.map f) =
      (t.operators.filter f).foldlM (fun plan o => do
        return plan.append
          (← finishedShare t allow (statusesOf t f) o (runningStatus t o)))
        { mayHaveFinished := allow } := by
  have hmembers : t.operators.zip (t.operators.map f) =
      t.operators.map fun o => (o, f o) := by
    simpa using List.zip_map' (f := id) (g := f) (l := t.operators)
  have hplanned : ((t.operators.zip (t.operators.map f)).zip
      (t.operators.map fun o => if f o then runningStatus t o
        else (runningStatus t o).clear)).filter (·.1.2) =
      (t.operators.filter f).map fun o => ((o, true), runningStatus t o) := by
    rw [hmembers, List.zip_map', List.filter_map]
    apply List.map_congr_left
    intro o ho
    have hf : f o = true := (List.mem_filter.mp ho).2
    simp [hf]
  unfold planAfterFinish
  simp only [hmembers, List.map_map, Function.comp_def] at hplanned ⊢
  rw [hplanned, List.foldlM_map]
  rfl

theorem of_planAfterFinish (h : t.Whole) {f : Operator → Bool}
    (hf : ∀ o ∈ t.operators, f o = true ↔ Planned t.graph scope o.id)
    (hok : planAfterFinish t allow (t.operators.map f) = .ok p) :
    AfterFinish t scope p := by
  rw [planAfterFinish_eq] at hok
  have hshares : ∀ o ∈ t.operators.filter f, ∀ q,
      finishedShare t allow (statusesOf t f) o (runningStatus t o) = .ok q →
      FinishedShare t f o q :=
    fun o ho q hq => of_finishedShare h (List.mem_filter.mp ho).1 hq
  -- The operators marked are those of the vertices in scope.
  have hruns : ∀ j, Runs t f j ↔ Forwards t scope j := by
    intro j
    refine and_congr_right fun _ => ?_
    constructor
    · rintro ⟨o, ho, hplanned, hj⟩
      obtain ⟨id, hid, hv⟩ := (h.staffed.mem_tasks ho).mp hj
      exact ⟨id, hid, hv ▸ (hf o ho).mp hplanned⟩
    · rintro ⟨id, hid, hplanned⟩
      obtain ⟨o, ho, hv⟩ := h.owned j id hid
      exact ⟨o, ho, (hf o ho).mpr (hv ▸ hplanned),
        (h.staffed.mem_tasks ho).mpr ⟨id, hid, hv.symm⟩⟩
  have hparts : ∀ {Q : TaskIndex → Prop} (a : TaskAttempt),
      (∃ o ∈ t.operators.filter f, ∃ i ∈ o.tasks, currentAt t i = some a ∧
        Q i) ↔ Planned t.graph scope a.task.vertex ∧
          ∃ i, currentAt t i = some a ∧ Q i := by
    intro Q a
    rw [← exists_attempt_iff h.toSound]
    simp only [List.mem_filter, and_assoc]
    exact exists_congr fun o => and_congr_right fun ho => by rw [hf o ho]
  refine ⟨fun a => ?_, fun a => ?_, fun a => ?_, fun v => ?_⟩
  · rw [mem_of_shares Plan.trigger (fun _ _ => rfl) rfl
      (fun x hx q hq => (hshares x hx q hq).trigger) hok a, hparts]
    simp only [IsCutOff, hruns]
  · rw [mem_of_shares Plan.waitFor (fun _ _ => rfl) rfl
      (fun x hx q hq => (hshares x hx q hq).waitFor) hok a, hparts]
  · rw [mem_of_shares Plan.finished (fun _ _ => rfl) rfl
      (fun x hx q hq => (hshares x hx q hq).finished) hok a, hparts]
  · rw [mem_of_shares Plan.fullyFinished (fun _ _ => rfl) rfl
      (fun x hx q hq => (hshares x hx q hq).fullyFinished) hok v]
    constructor
    · rintro ⟨o, ho, rfl, hnone⟩
      obtain ⟨ho, hplanned⟩ := List.mem_filter.mp ho
      exact ⟨(hf o ho).mp hplanned, o, ho, rfl, hnone⟩
    · rintro ⟨hplanned, o, ho, rfl, hnone⟩
      exact ⟨o, List.mem_filter.mpr ⟨ho, (hf o ho).mpr hplanned⟩, rfl, hnone⟩

/-- The operators marked for a scope are those of its planned vertices. -/
theorem exists_marks (t : Topology) (scope : Scope) (f : Operator → Target) :
    ∃ g : Operator → Bool, (match scope with
        | .group _ => (t.operators.map f).map (·.waited)
        | _ => t.operators.map fun _ => true) = t.operators.map g ∧
      ((∀ o ∈ t.operators, Targets t scope o (f o)) →
        ∀ o ∈ t.operators, g o = true ↔ Planned t.graph scope o.id) := by
  cases scope with
  | job => exact ⟨fun _ => true, rfl, fun _ o _ => by simp [Planned]⟩
  | rescale vertex blocked =>
    exact ⟨fun _ => true, rfl, fun _ o _ => by simp [Planned]⟩
  | group name =>
    exact ⟨fun o => (f o).waited, by simp, fun hf o ho => (hf o ho).waited⟩

/-- A plan is made by one of two loops, between two checks. -/
theorem plan_cases (h : t.Sound) (hok : plan t allow scope = .ok p) :
    checkInitiated t = .ok () ∧ checkRunning t p.waitFor = .ok () ∧
      ((SomeFinished t scope ∧ ∃ f : Operator → Bool,
          (∀ o ∈ t.operators, f o = true ↔ Planned t.graph scope o.id) ∧
          planAfterFinish t allow (t.operators.map f) = .ok p) ∨
        (¬ SomeFinished t scope ∧ ∃ f : Operator → Target,
          (∀ o ∈ t.operators, Targets t scope o (f o)) ∧
          planWhileRunning t allow (t.operators.map f) = .ok p)) := by
  obtain ⟨ts, hts, hrest⟩ := bind_eq_ok_iff.mp hok
  obtain ⟨f, rfl, hf⟩ := exists_of_targets h hts
  have hsome := hasFinishedTask_iff_someFinished h scope
  dsimp only at hrest
  generalize hasFinishedTask t _ = finished at hrest hsome
  by_cases habort : (finished && !allow) = true
  · rw [if_pos habort] at hrest
    cases hrest
  · rw [if_neg habort] at hrest
    obtain ⟨_, hinitiated, hrest⟩ := bind_eq_ok_iff.mp hrest
    refine ⟨hinitiated, ?_⟩
    cases finished with
    | true =>
      obtain ⟨q, hq, hrest⟩ := bind_eq_ok_iff.mp hrest
      obtain ⟨_, hrunning, hret⟩ := bind_eq_ok_iff.mp hrest
      cases hret
      obtain ⟨g, hmarked, hg⟩ := exists_marks t scope f
      have hmarks : planAfterFinish t allow (t.operators.map g) = .ok p := by
        rw [← hmarked]
        exact hq
      exact ⟨hrunning, .inl ⟨hsome.mp rfl, g, hg hf, hmarks⟩⟩
    | false =>
      obtain ⟨q, hq, hrest⟩ := bind_eq_ok_iff.mp hrest
      obtain ⟨_, hrunning, hret⟩ := bind_eq_ok_iff.mp hrest
      cases hret
      exact ⟨hrunning, .inr
        ⟨fun hs => Bool.false_ne_true (hsome.mpr hs), f, hf, hq⟩⟩

/-- A plan is only made when every task has an attempt and those waited for
run, and then in the one way or the other. -/
theorem of_plan (h : t.Whole) (hok : plan t allow scope = .ok p) :
    (∀ i < t.tasks.size, ∃ a, currentAt t i = some a) ∧
      (∀ a ∈ p.waitFor, t.InState a.task .running) ∧
      ((SomeFinished t scope ∧ AfterFinish t scope p) ∨
        (¬ SomeFinished t scope ∧ WhileRunning t scope p)) := by
  obtain ⟨hinitiated, hrunning, hmade⟩ := plan_cases h.toSound hok
  refine ⟨fun i hi => exists_currentAt_of_checkInitiated h.toSound hinitiated hi,
    inState_of_checkRunning hrunning, ?_⟩
  rcases hmade with ⟨hsome, f, hf, hp⟩ | ⟨hnone, f, hf, hp⟩
  · exact .inl ⟨hsome, of_planAfterFinish h hf hp⟩
  · exact .inr ⟨hnone, of_planWhileRunning h.toSound hf hp⟩

end Loops

/-! ## A plan for the small job -/

/-- The small job after its sources have finished. -/
def finishedSample : Topology :=
  sampleIn fun id => if id.vertex = sampleSource then .finished else .running

theorem plan_finishedSample :
    plan finishedSample true (.rescale sampleSink [sampleSource]) = .ok
      { trigger := [⟨⟨sampleSink, 0⟩, 0⟩, ⟨⟨sampleSink, 1⟩, 0⟩]
        waitFor := [⟨⟨sampleSink, 0⟩, 0⟩, ⟨⟨sampleSink, 1⟩, 0⟩]
        commitTo := [⟨sampleSink, 0⟩, ⟨sampleSink, 1⟩]
        finished := [⟨⟨sampleSource, 0⟩, 0⟩, ⟨⟨sampleSource, 1⟩, 0⟩]
        fullyFinished := [sampleSource]
        mayHaveFinished := true } := by
  decide +kernel

end ControlPlane.Checkpoint
