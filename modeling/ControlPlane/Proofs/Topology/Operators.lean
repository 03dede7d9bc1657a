import Mathlib
import ControlPlane.Proofs.Topology.Groups

/-!
# Operators and their tasks

An operator is a vertex of the job graph together with its tasks, which are
its subtasks in order. Its tasks are all the tasks of the vertex, so an
operator can be used in the place of the vertex and the other way round.
-/

namespace ControlPlane

/-- The operator of a vertex with the given subtasks. -/
def JobVertex.operator (v : JobVertex) (tasks : List TaskIndex) : Operator where
  id := v.id
  name := v.name
  parallelism := v.parallelism
  tasks
  inputs := v.inputs
  coLocationGroup := v.coLocationGroup
  snapshotGroup := v.snapshotGroup

namespace Topology

/-- The outputs of the vertex that a task belongs to. -/
def outputs (t : Topology) (i : TaskIndex) : List JobEdge :=
  ((t.taskIdAt i).map fun id => t.graph.outputsOf id.vertex).getD []

/-- The relations between tasks, partitions and groups, when some edges are
connected. -/
structure Wired (t : Topology) (done : List JobEdge) : Prop where
  indexed : t.Indexed
  producing : t.Producing t.outputs
  grouped : t.Grouped
  carrying : t.Carrying done

/-- The relations between operators and their tasks. -/
structure Staffed (t : Topology) : Prop where
  operatorIndex : Indexes t.operatorIndex (t.operators[·]?.map (·.id))
  vertex : ∀ o ∈ t.operators, ∃ v ∈ t.graph.vertices, o = v.operator o.tasks
  /-- The tasks of an operator are its subtasks in order. -/
  tasks : ∀ o ∈ t.operators, o.tasks.map t.taskIdAt =
    (List.range o.parallelism).map fun k => some ⟨o.id, k⟩
  /-- No task of its vertex is missing. -/
  complete : ∀ o ∈ t.operators, ∀ i id, t.taskIdAt i = some id →
    id.vertex = o.id → i ∈ o.tasks
  /-- Operators come after those they read from. -/
  producer : ∀ (q : Nat) o, t.operators[q]? = some o → ∀ e ∈ o.inputs,
    ∃ p < q, ∃ o', t.operators[p]? = some o' ∧ o'.id = e.producer

/-- What connecting edges and producing partitions leave alone. -/
structure SameStaff (t t' : Topology) : Prop where
  graph : t'.graph = t.graph
  operators : t'.operators = t.operators
  operatorIndex : t'.operatorIndex = t.operatorIndex
  taskIdAt : ∀ i, t'.taskIdAt i = t.taskIdAt i

theorem SameStaff.refl (t : Topology) : SameStaff t t :=
  ⟨rfl, rfl, rfl, fun _ => rfl⟩

theorem SameStaff.trans {t t' t'' : Topology} (h : SameStaff t t')
    (h' : SameStaff t' t'') : SameStaff t t'' :=
  ⟨h'.graph.trans h.graph, h'.operators.trans h.operators,
    h'.operatorIndex.trans h.operatorIndex,
    fun i => (h'.taskIdAt i).trans (h.taskIdAt i)⟩

theorem SameStaff.outputs {t t' : Topology} (h : SameStaff t t') (i : Nat) :
    t'.outputs i = t.outputs i := by
  rw [Topology.outputs, Topology.outputs, h.taskIdAt, h.graph]

theorem outputs_of_taskIdAt {t : Topology} {i : Nat} {id : TaskId}
    (h : t.taskIdAt i = some id) :
    t.outputs i = t.graph.outputsOf id.vertex := by
  simp [outputs, h]

/-- Only the outputs of existing tasks count. -/
theorem Producing.congr {t : Topology} {outs outs' : TaskIndex → List JobEdge}
    (h : t.Producing outs)
    (heq : ∀ i id, t.taskIdAt i = some id → outs' i = outs i) :
    t.Producing outs' where
  produced := by
    intro i id hi
    rw [h.produced i id hi, heq i id hi]
  producer := h.producer

theorem Wired.congr {t t' : Topology} {done : List JobEdge}
    (h : t.Wired done) (hl : SameLinks t t')
    (houtputs : ∀ i id, t.taskIdAt i = some id →
      t'.outputs i = t.outputs i) : t'.Wired done where
  indexed := hl.indexed h.indexed
  producing := hl.producing (h.producing.congr houtputs)
  grouped := hl.grouped h.grouped
  carrying := hl.carrying h.carrying

/-! ## Operators and their tasks -/

theorem operatorAt_eq_ok {t : Topology} {id : VertexId} {pos : Nat} :
    t.operatorAt id = .ok pos ↔ t.operatorIndex[id]? = some pos := by
  unfold operatorAt
  split <;> simp_all

namespace Staffed

variable {t : Topology}

/-- Looking up an id finds the operator that has it. -/
theorem operator_eq_ok (h : t.Staffed) {id : VertexId} {o : Operator} :
    t.operator id = .ok o ↔ o ∈ t.operators ∧ o.id = id := by
  constructor
  · intro ho
    unfold Topology.operator at ho
    split at ho
    · rename_i o' heq
      cases ho
      obtain ⟨pos, hpos, hget⟩ := Option.bind_eq_some_iff.mp heq
      have hid := (h.operatorIndex id pos).mp hpos
      simp only [hget, Option.map_some, Option.some.injEq] at hid
      exact ⟨List.mem_iff_getElem?.mpr ⟨pos, hget⟩, hid⟩
    · cases ho
  · rintro ⟨ho, rfl⟩
    obtain ⟨pos, hpos⟩ := List.mem_iff_getElem?.mp ho
    have hindex := (h.operatorIndex o.id pos).mpr (by simp [hpos])
    simp [Topology.operator, hindex, hpos]

theorem operator_inj (h : t.Staffed) {o o' : Operator}
    (ho : o ∈ t.operators) (ho' : o' ∈ t.operators) (hid : o.id = o'.id) :
    o = o' := by
  have h1 := h.operator_eq_ok.mpr ⟨ho, hid⟩
  rw [h.operator_eq_ok.mpr ⟨ho', rfl⟩] at h1
  exact (Except.ok.inj h1).symm

theorem exists_producer (h : t.Staffed) {o : Operator}
    (ho : o ∈ t.operators) {e : JobEdge} (he : e ∈ o.inputs) :
    ∃ o' ∈ t.operators, o'.id = e.producer := by
  obtain ⟨q, hq⟩ := List.mem_iff_getElem?.mp ho
  obtain ⟨p, -, o', ho', hid⟩ := h.producer q o hq e he
  exact ⟨o', List.mem_of_getElem? ho', hid⟩

/-- The task of an operator at a place is its subtask of that number. -/
theorem taskIdAt_getElem? (h : t.Staffed) {o : Operator}
    (ho : o ∈ t.operators) {k i : Nat} (hk : o.tasks[k]? = some i) :
    t.taskIdAt i = some ⟨o.id, k⟩ := by
  have hmap := congrArg (·[k]?) (h.tasks o ho)
  simp only [List.getElem?_map, hk, Option.map_some] at hmap
  obtain ⟨k', hr, hk'⟩ := Option.map_eq_some_iff.mp hmap.symm
  obtain ⟨hlt, hkk⟩ := List.getElem?_eq_some_iff.mp hr
  rw [List.getElem_range] at hkk
  rw [hkk, hk']

theorem length_tasks (h : t.Staffed) {o : Operator} (ho : o ∈ t.operators) :
    o.tasks.length = o.parallelism := by
  simpa using congrArg List.length (h.tasks o ho)

/-- The tasks of an operator are those of its vertex. -/
theorem mem_tasks (h : t.Staffed) {o : Operator} (ho : o ∈ t.operators)
    {i : Nat} :
    i ∈ o.tasks ↔ ∃ id, t.taskIdAt i = some id ∧ id.vertex = o.id := by
  constructor
  · intro hi
    obtain ⟨k, hk⟩ := List.mem_iff_getElem?.mp hi
    exact ⟨_, h.taskIdAt_getElem? ho hk, rfl⟩
  · rintro ⟨id, hid, hv⟩
    exact h.complete o ho i id hid hv

theorem subtask_lt (h : t.Staffed) {o : Operator} (ho : o ∈ t.operators)
    {i : Nat} {id : TaskId} (hi : t.taskIdAt i = some id)
    (hid : id.vertex = o.id) : id.subtask < o.parallelism := by
  have hmem := List.mem_map_of_mem (f := t.taskIdAt)
    ((h.mem_tasks ho).mpr ⟨id, hi, hid⟩)
  rw [h.tasks o ho, hi] at hmem
  obtain ⟨k, hk, heq⟩ := List.mem_map.mp hmem
  cases heq
  exact List.mem_range.mp hk

theorem nodup_tasks (h : t.Staffed) {o : Operator} (ho : o ∈ t.operators) :
    o.tasks.Nodup := by
  apply List.Nodup.of_map t.taskIdAt
  rw [h.tasks o ho]
  apply List.Nodup.map _ List.nodup_range
  intro k k' hk
  simpa using hk

/-- Staff only depends on what `SameStaff` keeps. -/
theorem congr {t' : Topology} (h : t.Staffed) (hs : SameStaff t t') :
    t'.Staffed where
  operatorIndex := by
    rw [hs.operatorIndex, hs.operators]
    exact h.operatorIndex
  vertex := by
    rw [hs.operators, hs.graph]
    exact h.vertex
  tasks := by
    rw [hs.operators, funext hs.taskIdAt]
    exact h.tasks
  complete := by
    rw [hs.operators, funext hs.taskIdAt]
    exact h.complete
  producer := by
    rw [hs.operators]
    exact h.producer

end Staffed

/-! ## Tasks behind the others -/

/-- The tasks behind the old ones are subtasks of a vertex, from a number
on. -/
def Appends (t : Topology) (vertex : VertexId) (first n : Nat)
    (t' : Topology) : Prop :=
  ∀ i : Nat, t'.taskIdAt i =
    if i < t.tasks.size then t.taskIdAt i
    else if i < t.tasks.size + n then
      some ⟨vertex, first + (i - t.tasks.size)⟩
    else none

namespace Appends

variable {t t' : Topology} {vertex : VertexId} {first n : Nat}
  (h : t.Appends vertex first n t')

include h

theorem taskIdAt_old {i : Nat} {id : TaskId} (hi : t.taskIdAt i = some id) :
    t'.taskIdAt i = some id := by
  rw [h, if_pos (lt_of_taskIdAt hi), hi]

theorem taskIdAt_new {k : Nat} (hk : k < n) :
    t'.taskIdAt (t.tasks.size + k) = some ⟨vertex, first + k⟩ := by
  have h1 : ¬ t.tasks.size + k < t.tasks.size := by omega
  have h2 : t.tasks.size + k < t.tasks.size + n := by omega
  rw [h, if_neg h1, if_pos h2, Nat.add_sub_cancel_left]

/-- A task is an old one or one of the new subtasks. -/
theorem taskIdAt_cases {i : Nat} {id : TaskId}
    (hi : t'.taskIdAt i = some id) :
    t.taskIdAt i = some id ∨
      ∃ k < n, i = t.tasks.size + k ∧ id = ⟨vertex, first + k⟩ := by
  rw [h] at hi
  split at hi
  · exact .inl hi
  · split at hi
    · cases hi
      exact .inr ⟨i - t.tasks.size, by omega, by omega, rfl⟩
    · cases hi

theorem map_taskIdAt_new :
    ((List.range n).map (t.tasks.size + ·)).map t'.taskIdAt =
      (List.range n).map fun k => some ⟨vertex, first + k⟩ := by
  rw [List.map_map]
  apply List.map_congr_left
  intro k hk
  exact h.taskIdAt_new (List.mem_range.mp hk)

theorem map_taskIdAt_old (hs : t.Staffed) {o : Operator}
    (ho : o ∈ t.operators) :
    o.tasks.map t'.taskIdAt = o.tasks.map t.taskIdAt := by
  apply List.map_congr_left
  intro i hi
  obtain ⟨id, hid, -⟩ := (hs.mem_tasks ho).mp hi
  rw [hid, h.taskIdAt_old hid]

end Appends

end Topology

end ControlPlane
