import Mathlib
import ControlPlane.Topology.Attempts
import ControlPlane.Proofs.Topology.Growth

/-!
# Reachable topologies

A topology is built from a job graph and then changed by three calls: it
grows, a task gets a new attempt, or an attempt changes its state. What all
of these keep holds of every reachable topology.
-/

namespace ControlPlane

namespace Topology

/-! ## Attempts -/

/-- What giving a task an attempt amounts to. -/
structure Attempted (t : Topology) (i : TaskIndex) (a : Attempt)
    (t' : Topology) : Prop where
  links : SameLinks t t'
  staff : SameStaff t t'
  size : t'.tasks.size = t.tasks.size
  attemptAt : ∀ j : Nat, t'.attemptAt j =
    if j = i then some a else t.attemptAt j
  regions : t'.regions = t.regions
  regionOf : t'.regionOf = t.regionOf

section Attempts

variable {t t' : Topology} {id : TaskId} {i : Nat} {task : Task}

theorem attempted_modify {a : Attempt} {f : Task → Task}
    (hi : i < t.tasks.size) (hid : ∀ x, (f x).id = x.id)
    (hproduced : ∀ x, (f x).produced = x.produced)
    (hconsumed : ∀ x, (f x).consumed = x.consumed)
    (hattempt : ∀ x, t.tasks[i]? = some x → (f x).attempt = some a) :
    Attempted t i a { t with tasks := t.tasks.modify i f } := by
  have hids : ∀ j, ({ t with tasks := t.tasks.modify i f } :
      Topology).taskIdAt j = t.taskIdAt j := by
    intro j
    simp only [taskIdAt, Array.getElem?_modify]
    split <;> cases t.tasks[j]? <;> simp [hid]
  refine ⟨⟨rfl, rfl, rfl, rfl, rfl, funext hids, ?_, ?_, rfl, rfl⟩,
    ⟨rfl, rfl, rfl, hids⟩, Array.size_modify, ?_, rfl, rfl⟩
  · funext j
    simp only [producedBy, Array.getElem?_modify]
    split <;> cases t.tasks[j]? <;> simp [hproduced]
  · funext j
    simp only [consumedBy, Array.getElem?_modify]
    split <;> cases t.tasks[j]? <;> simp [hconsumed]
  · intro j
    simp only [attemptAt, Array.getElem?_modify]
    by_cases hij : i = j
    · subst hij
      simp [hi, hattempt]
    · simp [hij, Ne.symm hij]

theorem attempted_of_attachAttempt (h : t.Indexed) {number : Nat}
    (hok : t.attachAttempt id = .ok (t', number)) :
    ∃ i, t.taskIdAt i = some id ∧ Attempted t i ⟨number, .created⟩ t' := by
  obtain ⟨i, hindex, hrest⟩ := bind_eq_ok_iff.mp hok
  obtain ⟨task, -, hret⟩ := bind_eq_ok_iff.mp hrest
  cases hret
  have hi := h.taskAt_eq_ok.mp hindex
  refine ⟨i, hi, ?_⟩
  exact attempted_modify (f := fun x =>
      { x with
        attempt := some ⟨task.attemptsStarted, .created⟩
        attemptsStarted := (task.attemptsStarted + 1) % UInt32.size })
    (lt_of_taskIdAt hi) (fun _ => rfl) (fun _ => rfl) (fun _ => rfl)
    fun _ _ => rfl

theorem attempted_of_transition (h : t.Indexed)
    {state previous : TaskState}
    (hok : t.transition id state = .ok (t', previous)) :
    ∃ i a, t.taskIdAt i = some id ∧ t.attemptAt i = some a ∧
      previous = a.state ∧ Attempted t i { a with state } t' := by
  obtain ⟨i, hindex, hrest⟩ := bind_eq_ok_iff.mp hok
  obtain ⟨task, htask, hret⟩ := bind_eq_ok_iff.mp hrest
  have hi := h.taskAt_eq_ok.mp hindex
  have hget := (h.task_eq_ok hi).mp htask
  dsimp only at hret
  cases ha : task.attempt with
  | none =>
    rw [ha] at hret
    cases hret
  | some a =>
  rw [ha] at hret
  cases hret
  refine ⟨i, a, hi, by simp [attemptAt, hget, ha], rfl, ?_⟩
  exact attempted_modify (f := fun x =>
      { x with attempt := some { a with state } })
    (lt_of_taskIdAt hi) (fun _ => rfl) (fun _ => rfl) (fun _ => rfl)
    fun _ _ => rfl

end Attempts

/-! ## Calls -/

/-- A call that changes a topology. -/
inductive Call where
  | extendRegion (sibling : TaskId) (additional : Nat)
  | attachAttempt (id : TaskId)
  | transition (id : TaskId) (state : TaskState)

/-- The topology after a call. A failing call may leave it as it was. -/
def Call.run (t : Topology) : Call → Topology
  | extendRegion sibling additional => (t.extendRegion sibling additional).1
  | attachAttempt id =>
    match t.attachAttempt id with
    | .ok (t', _) => t'
    | .error _ => t
  | transition id state =>
    match t.transition id state with
    | .ok (t', _) => t'
    | .error _ => t

/-- The topologies of built graphs after any calls. -/
inductive Reachable : Topology → Prop where
  | built {g : JobGraph} {t : Topology} (hg : g.Built)
      (h : ofJobGraph g = .ok t) : Reachable t
  | call {t : Topology} (h : Reachable t) (c : Call) : Reachable (c.run t)

/-- The topology after some calls. -/
def runAll (t : Topology) (calls : List Call) : Topology :=
  calls.foldl Call.run t

theorem Reachable.runAll {t : Topology} (h : t.Reachable)
    (calls : List Call) : (t.runAll calls).Reachable := by
  induction calls generalizing t with
  | nil => exact h
  | cons c calls ih => exact ih (h.call c)

theorem whole_of_ofJobGraph {g : JobGraph} (hg : g.WellFormed)
    {t : Topology} (h : ofJobGraph g = .ok t) : t.Whole := by
  obtain ⟨t0, hwhole, -, rfl⟩ := exists_of_ofJobGraph hg h
  exact hwhole.computeRegions

theorem Attempted.whole {t t' : Topology} {i : Nat} {a : Attempt}
    (ha : Attempted t i a t') (h : t.Whole) : t'.Whole :=
  h.congr ha.links ha.staff

/-- A call grows the topology, attempts a task or changes nothing. -/
theorem Whole.call_cases {t : Topology} (h : t.Whole) (c : Call) :
    c.run t = t ∨ (∃ i a, i < t.tasks.size ∧ Attempted t i a (c.run t)) ∨
      ∃ (o : Operator) (i n : Nat), o ∈ t.operators ∧ i ∈ o.tasks ∧
        Extended t o i n (c.run t) := by
  cases c with
  | extendRegion sibling additional =>
    rcases h.extendRegion_cases sibling additional with
      ⟨heq, -⟩ | ⟨o, i, ho, hid, hi, -, hext⟩
    · exact .inl heq
    · exact .inr (.inr ⟨o, i, additional, ho,
        (h.staffed.mem_tasks ho).mpr ⟨sibling, hi, hid.symm⟩, hext⟩)
  | attachAttempt id =>
    simp only [Call.run]
    split
    · rename_i t' number hok
      obtain ⟨i, hi, ha⟩ :=
        attempted_of_attachAttempt h.wired.indexed hok
      exact .inr (.inl ⟨i, _, lt_of_taskIdAt hi, ha⟩)
    · exact .inl rfl
  | transition id state =>
    simp only [Call.run]
    split
    · rename_i t' previous hok
      obtain ⟨i, a, hi, -, -, ha⟩ :=
        attempted_of_transition h.wired.indexed hok
      exact .inr (.inl ⟨i, _, lt_of_taskIdAt hi, ha⟩)
    · exact .inl rfl

theorem Reachable.whole {t : Topology} (h : t.Reachable) : t.Whole := by
  induction h with
  | built hg h => exact whole_of_ofJobGraph hg.wellFormed h
  | call _ c ih =>
    rcases ih.call_cases c with heq | ⟨i, a, -, ha⟩ | ⟨o, i, n, -, -, hext⟩
    · rw [heq]
      exact ih
    · exact ha.whole ih
    · exact hext.whole

/-! ## A small job -/

/-- The operator at the start of the small job. -/
def sampleSource : VertexId := ⟨⟨1⟩⟩

/-- The operator at the end of the small job. -/
def sampleSink : VertexId := ⟨⟨2⟩⟩

/-- Two sources and two sinks. -/
def sampleVertices : JobGraph :=
  let start : JobGraph := { name := "sample" }
  (start.addVertex sampleSource "source" 2).addVertex sampleSink "sink" 2

/-- The sinks read everything once it is complete. -/
def sampleGraph : JobGraph :=
  (sampleVertices.connect ⟨⟨3⟩⟩ sampleSource sampleSink .allToAll
    .blocking).toOption.getD sampleVertices

theorem built_sampleVertices : sampleVertices.Built :=
  .addVertex "sink" 2 (.addVertex "source" 2 (.empty "sample") (by simp))
    (by decide)

theorem built_sampleGraph : sampleGraph.Built := by
  have hconnect : sampleVertices.connect ⟨⟨3⟩⟩ sampleSource sampleSink
    .allToAll .blocking = .ok sampleGraph := rfl
  exact .connect built_sampleVertices (by decide) hconnect

/-- The topology of the small job. -/
def sample : Topology :=
  (ofJobGraph sampleGraph).toOption.getD { graph := sampleGraph }

theorem ofJobGraph_sampleGraph : ofJobGraph sampleGraph = .ok sample :=
  eq_ok_getD rfl _

theorem reachable_sample : sample.Reachable :=
  .built built_sampleGraph ofJobGraph_sampleGraph

/-- The small job with an attempt of every task, in a state of its own. -/
def sampleIn (state : TaskId → TaskState) : Topology :=
  let ids : List TaskId := [⟨sampleSource, 0⟩, ⟨sampleSource, 1⟩,
    ⟨sampleSink, 0⟩, ⟨sampleSink, 1⟩]
  ids.foldl (fun t id => Call.run (Call.run t (.attachAttempt id))
    (.transition id (state id))) sample

theorem reachable_sampleIn (state : TaskId → TaskState) :
    (sampleIn state).Reachable := by
  apply List.foldlRecOn
  · exact reachable_sample
  · intro t ht id _
    exact (ht.call _).call _

end Topology

end ControlPlane
