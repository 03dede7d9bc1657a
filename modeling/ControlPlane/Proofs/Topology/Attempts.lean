import Mathlib
import ControlPlane.Proofs.Topology.Rescaled

/-!
# The attempts of a task

The attempts of a task are numbered from zero, in words of 32 bits. Only two
calls touch them: one attaches the next attempt, whatever has become of the
one before, and one moves the current attempt to any state. What a run of
calls makes of the attempt of a task can therefore be followed without the
topology.
-/

namespace ControlPlane

/-- The number of the attempt after another one, if there was one. The last
number of 32 bits is followed by zero. -/
def Attempt.nextNumber (previous : Option Attempt) : Nat :=
  (previous.map fun a => (a.number + 1) % UInt32.size).getD 0

/-- The count of attempts is the number that the next one gets. -/
def Task.Counted (task : Task) : Prop :=
  task.attemptsStarted = Attempt.nextNumber task.attempt

namespace Topology

variable {t t' : Topology} {id : TaskId} {i : Nat}

/-! ## Numbers -/

theorem counted_of_attachAttempt {number : Nat}
    (h : ∀ task ∈ t.tasks, task.Counted)
    (hok : t.attachAttempt id = .ok (t', number)) :
    ∀ task ∈ t'.tasks, task.Counted := by
  obtain ⟨i, -, hrest⟩ := bind_eq_ok_iff.mp hok
  obtain ⟨task, -, hret⟩ := bind_eq_ok_iff.mp hrest
  cases hret
  exact forall_mem_modify (P := Task.Counted) (f := fun x =>
    { x with
      attempt := some ⟨task.attemptsStarted, .created⟩
      attemptsStarted := (task.attemptsStarted + 1) % UInt32.size }) h
    fun _ _ => rfl

theorem counted_of_transition (ht : t.Indexed) {state previous : TaskState}
    (h : ∀ task ∈ t.tasks, task.Counted)
    (hok : t.transition id state = .ok (t', previous)) :
    ∀ task ∈ t'.tasks, task.Counted := by
  obtain ⟨i, hindex, hrest⟩ := bind_eq_ok_iff.mp hok
  obtain ⟨task, htask, hret⟩ := bind_eq_ok_iff.mp hrest
  have hget := (ht.task_eq_ok (ht.taskAt_eq_ok.mp hindex)).mp htask
  dsimp only at hret
  split at hret
  · cases hret
  · rename_i a ha
    cases hret
    intro x hx
    obtain ⟨j, hj⟩ := Array.mem_iff_getElem?.mp hx
    rw [Array.getElem?_modify] at hj
    split at hj
    · rename_i hij
      subst hij
      rw [hget] at hj
      cases hj
      -- The number stays, so it still goes with those started.
      have hcounted := h task (Array.mem_of_getElem? hget)
      rw [Task.Counted, ha] at hcounted
      exact hcounted
    · exact h x (Array.mem_of_getElem? hj)

/-- New tasks have not been started. -/
theorem Continues.counted (hc : Continues t t')
    (h : ∀ task ∈ t.tasks, task.Counted) : ∀ task ∈ t'.tasks, task.Counted := by
  intro task htask
  obtain ⟨i, hi⟩ := Array.mem_iff_getElem?.mp htask
  by_cases hlt : i < t.tasks.size
  · rw [hc.tasks i hlt] at hi
    exact h task (Array.mem_of_getElem? hi)
  · obtain ⟨hattempt, hstarted⟩ :=
      hc.unstarted i task (Nat.le_of_not_lt hlt) hi
    rw [Task.Counted, hattempt, hstarted]
    rfl

theorem Reachable.counted (h : t.Reachable) :
    ∀ task ∈ t.tasks, task.Counted := by
  induction h with
  | built _ h =>
    exact Lasting.of_ofJobGraph ⟨fun _ => rfl, fun _ _ h => h, fun _ _ h => h⟩ h
  | @call t h c ih =>
    cases c with
    | extendRegion sibling n =>
      rw [Call.run]
      cases h.outcome sibling n with
      | unknown _ hcall | refused _ _ _ hcall | nothing _ _ _ hcall =>
        rw [hcall]
        exact ih
      | enlarged _ _ _ _ _ _ _ _ _ hcall hchange =>
        rw [hcall]
        exact hchange.counted ih
    | attachAttempt id =>
      rw [Call.run]
      split
      · rename_i hok
        exact counted_of_attachAttempt ih hok
      · exact ih
    | transition id state =>
      rw [Call.run]
      split
      · rename_i hok
        exact counted_of_transition h.whole.wired.indexed ih hok
      · exact ih

/-- A task there is can be given its next attempt. -/
theorem Reachable.exists_attached (h : t.Reachable)
    (hi : t.taskIdAt i = some id) :
    ∃ t', t.attachAttempt id =
        .ok (t', Attempt.nextNumber (t.attemptAt i)) ∧
      Attempted t i ⟨Attempt.nextNumber (t.attemptAt i), .created⟩ t' := by
  have hindexed := h.whole.wired.indexed
  obtain ⟨⟨t', number⟩, hok⟩ := hindexed.exists_attachAttempt hi
  obtain ⟨j, hj, ha⟩ := attempted_of_attachAttempt hindexed hok
  obtain rfl := hindexed.taskId_inj hi hj
  suffices hnumber : number = Attempt.nextNumber (t.attemptAt i) by
    rw [← hnumber]
    exact ⟨t', hok, ha⟩
  obtain ⟨k, -, hrest⟩ := bind_eq_ok_iff.mp hok
  obtain ⟨task, htask, hret⟩ := bind_eq_ok_iff.mp hrest
  have hget := (hindexed.task_eq_ok hi).mp htask
  cases hret
  rw [attemptAt, hget]
  exact h.counted task (Array.mem_of_getElem? hget)

/-! ## The attempt of a task -/

/-- The current attempt of the task with an id. -/
def currentAttempt (t : Topology) (id : TaskId) : Option Attempt :=
  (t.task id).toOption.bind (·.attempt)

theorem Indexed.currentAttempt_eq (h : t.Indexed)
    (hi : t.taskIdAt i = some id) : t.currentAttempt id = t.attemptAt i := by
  have hget := Array.getElem?_eq_getElem (lt_of_taskIdAt hi)
  rw [currentAttempt, (h.task_eq_ok hi).mpr hget, attemptAt, hget]
  rfl

theorem Indexed.hasTask_of_currentAttempt (h : t.Indexed) {a : Attempt}
    (ha : t.currentAttempt id = some a) : t.HasTask id := by
  unfold currentAttempt Topology.task at ha
  cases hindex : t.taskIndex[id]? with
  | none =>
    rw [hindex] at ha
    cases ha
  | some i => exact ⟨i, (h.tasks id i).mp hindex⟩

/-- What a call makes of the attempt of a task. -/
def Call.attempt (id : TaskId) (a : Option Attempt) : Call → Option Attempt
  | extendRegion _ _ => a
  | attachAttempt id' =>
    if id' = id then some ⟨Attempt.nextNumber a, .created⟩ else a
  | transition id' state =>
    if id' = id then a.map ({ · with state }) else a

theorem Attempted.currentAttempt_eq {a : Attempt} (ha : Attempted t i a t')
    (h : t.Whole) {id' : TaskId} (hi : t.taskIdAt i = some id')
    (hid : t.HasTask id) : t'.currentAttempt id =
      if id' = id then some a else t.currentAttempt id := by
  obtain ⟨j, hj⟩ := hid
  have hj' : t'.taskIdAt j = some id := by rw [ha.links.taskIdAt, hj]
  rw [(ha.whole h).wired.indexed.currentAttempt_eq hj', ha.attemptAt,
    h.wired.indexed.currentAttempt_eq hj]
  by_cases hji : j = i
  · subst hji
    rw [if_pos rfl, if_pos (Option.some.inj (hi.symm.trans hj))]
  · rw [if_neg hji, if_neg]
    rintro rfl
    exact hji (h.wired.indexed.taskId_inj hj hi)

theorem Reachable.currentAttempt_run (h : t.Reachable) (hid : t.HasTask id)
    (c : Call) : (c.run t).currentAttempt id =
      c.attempt id (t.currentAttempt id) := by
  have hindexed := h.whole.wired.indexed
  cases c with
  | extendRegion sibling n =>
    obtain ⟨j, hj⟩ := hid
    have hnext := (h.call (.extendRegion sibling n)).whole.wired.indexed
    rw [Call.attempt]
    rcases h.extendRegion_cases sibling n with
      ⟨e, hcall⟩ | ⟨-, hcall⟩ | ⟨o, i, t', -, -, hext, hcall⟩
    · rw [Call.run, hcall]
    · rw [Call.run, hcall]
    · rw [Call.run, hcall] at hnext ⊢
      have hlt := lt_of_taskIdAt hj
      have hj' : t'.taskIdAt j = some id := by
        rw [hext.taskIdAt, if_pos hlt, hj]
      rw [hnext.currentAttempt_eq hj', hindexed.currentAttempt_eq hj,
        hext.attemptAt, if_pos hlt]
  | attachAttempt id' =>
    rw [Call.attempt, Call.run]
    by_cases hid' : t.HasTask id'
    · obtain ⟨i, hi⟩ := hid'
      obtain ⟨t', hok, ha⟩ := h.exists_attached hi
      rw [hok]
      refine (ha.currentAttempt_eq h.whole hi hid).trans ?_
      split
      · rename_i heq
        rw [← hindexed.currentAttempt_eq hi, heq]
      · rfl
    · have hne : id' ≠ id := fun heq => hid' (heq ▸ hid)
      rw [if_neg hne]
      split
      · rename_i hok
        obtain ⟨i, hi, -⟩ := attempted_of_attachAttempt hindexed hok
        exact absurd ⟨i, hi⟩ hid'
      · rfl
  | transition id' state =>
    rw [Call.attempt, Call.run]
    rcases hindexed.transition_cases id' state with
      ⟨e, hfail, hnone⟩ | ⟨i, a, t', hok, hi, hattempt, ha⟩
    · rw [hfail]
      dsimp only
      split
      · -- A task without an attempt stays without one.
        rename_i heq
        obtain ⟨j, hj⟩ := hid
        rw [hindexed.currentAttempt_eq hj, hnone j (heq ▸ hj)]
        rfl
      · rfl
    · rw [hok]
      refine (ha.currentAttempt_eq h.whole hi hid).trans ?_
      split
      · rename_i heq
        rw [← heq, hindexed.currentAttempt_eq hi, hattempt]
        rfl
      · rfl

/-- What a run of calls makes of the attempt of a task. -/
theorem Reachable.currentAttempt_runAll (h : t.Reachable)
    (hid : t.HasTask id) (calls : List Call) :
    (t.runAll calls).currentAttempt id =
      calls.foldl (Call.attempt id) (t.currentAttempt id) := by
  induction calls generalizing t with
  | nil => rfl
  | cons c calls ih =>
    rw [List.foldl_cons, ← h.currentAttempt_run hid c]
    exact ih (h.call c) (hid.run h.whole c)

end Topology

end ControlPlane
