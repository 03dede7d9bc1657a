import Mathlib
import ControlPlane.Proofs.Checkpoint.Agreement

/-!
# What keeps a checkpoint from being planned

Once every task has an attempt, no loop that puts a plan together can fail:
what a task reads from is there, and so is the status of every operator. So
there always is a draft, and all that is left is the check that the tasks in
it that are waited for run.
-/

namespace ControlPlane.Checkpoint

open ControlPlane.Topology

/-- A plan is put together if every share is. -/
theorem exists_foldlM_append {α : Type*} {share : α → Except Failure Plan}
    {xs : List α} (h : ∀ x ∈ xs, ∃ q, share x = .ok q) (p₀ : Plan) :
    ∃ p, xs.foldlM (fun plan x => do return plan.append (← share x)) p₀ =
      .ok p := by
  have hshares : ∀ x ∈ xs, ∃ q, share x = .ok q ∧ share x = .ok q :=
    fun x hx => (h x hx).imp fun q hq => ⟨hq, hq⟩
  obtain ⟨p, hp, -⟩ := exists_plan_of_shares hshares p₀
  exact ⟨p, hp⟩

/-- A plan for a scope before it is checked that the tasks waited for run. -/
structure Draft (t : Topology) (allow : Bool) (scope : Scope) (p : Plan) :
    Prop where
  made : (SomeFinished t scope ∧ AfterFinish t scope p) ∨
    (¬ SomeFinished t scope ∧ WhileRunning t scope p)
  plan_eq : plan t allow scope =
    Except.bind (checkRunning t p.waitFor) fun _ => .ok p

/-- Who is waited for is a task of the job. -/
theorem Draft.known {t : Topology} (h : t.Indexed) {allow : Bool}
    {scope : Scope} {p : Plan} (hp : Draft t allow scope p) :
    ∀ a ∈ p.waitFor, ∃ task, t.task a.task = .ok task := by
  intro a ha
  obtain ⟨i, hi⟩ : ∃ i, currentAt t i = some a := by
    rcases hp.made with ⟨-, hmade⟩ | ⟨-, hmade⟩
    · obtain ⟨-, i, hi, -⟩ := (hmade.waitFor a).mp ha
      exact ⟨i, hi⟩
    · exact ((hmade.waitFor a).mp ha).2
  obtain ⟨task, -, htask, -⟩ := isCurrent_of_currentAt h hi
  exact ⟨task, htask⟩

section Started

variable {t : Topology} {o : Operator} {planned : Operator → Bool}
  {allow : Bool}

/-! ## Searches upstream -/

theorem exists_mustTrigger (h : t.Sound) (ho : o ∈ t.operators) :
    ∃ b, mustTrigger t (statusesOf t planned) o.inputs = .ok b := by
  refine exists_bind_eq_ok (exists_anyM_eq_ok fun e he => ?_)
    fun found => ⟨!found, rfl⟩
  obtain ⟨o', ho', hid⟩ := h.staffed.exists_producer ho he
  obtain ⟨s, hs, -⟩ := exists_statusOf planned h ho'
  rw [← hid, hs]
  exact ⟨_, rfl⟩

theorem exists_hasRunningPredecessor (h : t.Sound) (task : Task) :
    ∃ b, hasRunningPredecessor t (statusesOf t planned) o.inputs task =
      .ok b := by
  apply exists_anyM_eq_ok
  rintro ⟨e, group⟩ -
  dsimp only
  split
  · exact ⟨false, rfl⟩
  · apply exists_anyM_eq_ok
    intro producer hproducer
    obtain ⟨i, -, hget⟩ := mem_tasksOf.mp hproducer
    have hid := taskIdAt_of_getElem? hget
    obtain ⟨s, hs, -⟩ := exists_statusOf_task planned h hid
    rw [hs]
    exact ⟨_, rfl⟩

/-! ## Shares -/

variable (hstarted : ∀ i < t.tasks.size, ∃ a, currentAt t i = some a)

include hstarted

theorem exists_runningShare (target : Target) :
    ∃ q, runningShare t allow target = .ok q :=
  exists_bind_eq_ok
    (exists_mapM_eq_ok fun _ => exists_attemptOf hstarted)
    fun _ => ⟨_, rfl⟩

theorem exists_roleOf (h : t.Sound) {must runs : Bool} {is : List TaskIndex}
    {task : Task} (htask : task ∈ t.tasksOf is) :
    ∃ r, roleOf t (statusesOf t planned) o must runs task = .ok r := by
  refine exists_bind_eq_ok (exists_attemptOf hstarted htask) fun a => ?_
  dsimp only
  split
  · obtain ⟨b, hb⟩ : ∃ b, hasRunningPredecessor t (statusesOf t planned)
        o.inputs task = .ok b :=
      exists_hasRunningPredecessor h task
    rw [hb]
    exact ⟨_, rfl⟩
  · exact ⟨_, rfl⟩

theorem exists_finishedShare (h : t.Sound) (ho : o ∈ t.operators) :
    ∃ q, finishedShare t allow (statusesOf t planned) o (runningStatus t o) =
      .ok q := by
  have hroles : ∀ must, ∃ roles, (t.tasksOf o.tasks).zipIdx.mapM (fun x =>
      roleOf t (statusesOf t planned) o must
        ((runningStatus t o).contains x.2) x.1) = .ok roles := by
    intro must
    apply exists_mapM_eq_ok
    intro x hmem
    have htask : x.1 ∈ t.tasksOf o.tasks :=
      List.mem_of_getElem? (List.mk_mem_zipIdx_iff_getElem?.mp hmem)
    exact exists_roleOf hstarted h htask
  unfold finishedShare
  dsimp only
  split
  · exact exists_bind_eq_ok ⟨false, rfl⟩ fun must =>
      exists_bind_eq_ok (hroles must) fun _ => ⟨_, rfl⟩
  · exact exists_bind_eq_ok (exists_mustTrigger h ho) fun must =>
      exists_bind_eq_ok (hroles must) fun _ => ⟨_, rfl⟩

/-! ## Drafts -/

variable (allow)

theorem exists_planWhileRunning (targets : List Target) :
    ∃ p, planWhileRunning t allow targets = .ok p :=
  exists_foldlM_append (fun target _ => exists_runningShare hstarted target) _

theorem exists_planAfterFinish (h : t.Sound) (f : Operator → Bool) :
    ∃ p, planAfterFinish t allow (t.operators.map f) = .ok p := by
  rw [planAfterFinish_eq]
  exact exists_foldlM_append (fun o ho =>
    exists_finishedShare hstarted h (List.mem_filter.mp ho).1) _

/-- There is a draft for a scope that names what there is, if it is allowed
that some tasks have finished. -/
theorem exists_draft (h : t.Whole) {scope : Scope} {ts : List Target}
    (hts : targets t scope = .ok ts)
    (hallow : SomeFinished t scope → allow = true) :
    ∃ p, Draft t allow scope p := by
  obtain ⟨f, rfl, hf⟩ := exists_of_targets h.toSound hts
  have hsome := hasFinishedTask_iff_someFinished h.toSound scope
  obtain ⟨g, hmarked, hg⟩ := exists_marks t scope f
  obtain ⟨p, hp⟩ := exists_planWhileRunning allow hstarted
    (t.operators.map f)
  obtain ⟨q, hq⟩ := exists_planAfterFinish allow hstarted
    h.toSound g
  have hmade := of_planAfterFinish h (hg hf) hq
  rw [← hmarked] at hq
  have heq : plan t allow scope = Except.bind (targets t scope) fun _ => _ :=
    rfl
  rw [hts] at heq
  simp only [bind, Except.bind, checkInitiated_eq_ok hstarted] at heq
  generalize hasFinishedTask t _ = finished at heq hsome
  -- The answer picks the loop, and both of them come to a plan.
  cases finished with
  | true =>
    have hfinished := hsome.mp rfl
    obtain rfl := hallow hfinished
    refine ⟨q, .inl ⟨hfinished, hmade⟩, heq.trans ?_⟩
    generalize planAfterFinish t true _ = made at hq
    subst hq
    rfl
  | false =>
    have hfinished : ¬ SomeFinished t scope :=
      fun hs => Bool.false_ne_true (hsome.mpr hs)
    refine ⟨p, .inr ⟨hfinished, of_planWhileRunning h.toSound hf hp⟩,
      heq.trans ?_⟩
    simp only [hp]
    rfl

end Started

end ControlPlane.Checkpoint
