import Mathlib
import ControlPlane.Proofs.JobGraph.Builder
import ControlPlane.Proofs.Topology.Links

/-!
# The relations between the parts of a topology

Four families of facts hold from the first task on: ids lead to positions
(`Indexed`), tasks and the partitions they produce point at each other
(`Producing`), groups and their readers do (`Grouped`), and groups carry the
edges connected so far (`Carrying`). For every small step this module says
under which conditions it keeps each family.
-/

namespace ControlPlane

namespace Topology

/-- Ids of tasks and partitions lead to their positions. -/
structure Indexed (t : Topology) : Prop where
  tasks : Indexes t.taskIndex t.taskIdAt
  partitions : Indexes t.partitionIndex fun p => (t.outputAt p).map (·.id)

/-- Every task produces one partition for each of its outputs, which points
back at it. Which outputs a task has got so far is a parameter. -/
structure Producing (t : Topology) (outputs : TaskIndex → List JobEdge) :
    Prop where
  produced : ∀ i id, t.taskIdAt i = some id →
    (t.producedBy i).map t.outputAt =
      (outputs i).map fun e => some (e.output id.subtask i)
  producer : ∀ p x, t.outputAt p = some x → p ∈ t.producedBy x.producer

/-- Groups and consumer groups belong together in pairs, and a membership
is known at both of its ends. -/
structure Grouped (t : Topology) : Prop where
  size : t.consumerGroups.size = t.groups.size
  consumerGroup : ∀ g < t.groups.size, t.consumerGroupAt g = some g
  partitionGroup : ∀ g < t.groups.size, t.partitionGroupAt g = some g
  mem_partitionsIn : ∀ g p, p ∈ t.partitionsIn g ↔ g ∈ t.consumersOf p
  mem_tasksReading : ∀ g i, i ∈ t.tasksReading g ↔ g ∈ t.consumedBy i
  nodup_partitionsIn : ∀ g, (t.partitionsIn g).Nodup
  nodup_tasksReading : ∀ g, (t.tasksReading g).Nodup

/-- The groups are those of the edges connected so far: every task consumes
one for each of the edges that lead to it, in their order, and every
partition has one consumer group for each edge that carries its dataset. -/
structure Carrying (t : Topology) (done : List JobEdge) : Prop where
  exchange : ∀ g x, t.exchangeAt g = some x → ∃ e ∈ done, e.exchange = x
  dataSet : ∀ g p, p ∈ t.partitionsIn g →
    (t.outputAt p).map (·.id.dataSet) = (t.exchangeAt g).map (·.dataSet)
  consumed : ∀ i id, t.taskIdAt i = some id →
    (t.consumedBy i).map t.exchangeAt =
      (done.filter (·.target = id.vertex)).map fun e => some e.exchange
  connected : ∀ p x, t.outputAt p = some x →
    (t.consumersOf p).length = done.countP (·.source = x.id.dataSet)
  dataSetGroups : ∀ d g, g ∈ t.dataSetGroups.getD d [] ↔
    (t.exchangeAt g).map (·.dataSet) = some d
  shuffled : ∀ e ∈ done, e.pattern = .allToAll →
    (t.dataSetGroups.getD e.source []).length = 1

/-! ## What follows from the families -/

section Consequences

variable {t : Topology}

theorem Indexed.taskId_inj (h : t.Indexed) {i j : Nat} {id : TaskId}
    (hi : t.taskIdAt i = some id) (hj : t.taskIdAt j = some id) : i = j :=
  h.tasks.inj hi hj

theorem Indexed.partitionId_inj (h : t.Indexed) {p q : Nat}
    {x y : Output} (hp : t.outputAt p = some x) (hq : t.outputAt q = some y)
    (hid : x.id = y.id) : p = q :=
  h.partitions.inj (k := x.id) (by simp [hp]) (by simp [hq, hid])

theorem Indexed.taskAt_eq_ok (h : t.Indexed) {id : TaskId} {i : Nat} :
    t.taskAt id = .ok i ↔ t.taskIdAt i = some id := by
  rw [← h.tasks id i, taskAt]
  split <;> simp_all

/-- The only reason not to find a task is that there is none. -/
theorem taskAt_eq_error {id : TaskId} {e : Error}
    (h : t.taskAt id = .error e) : e = .unknownTask id := by
  unfold taskAt at h
  split at h <;> cases h
  rfl

theorem Indexed.task_eq_ok (h : t.Indexed) {id : TaskId} {i : Nat}
    {task : Task} (hi : t.taskIdAt i = some id) :
    t.task id = .ok task ↔ t.tasks[i]? = some task := by
  rw [Topology.task, (h.tasks id i).mpr hi, Option.bind_some]
  split <;> simp_all

/-- A partition is the one that its producer produces for some output. -/
theorem Producing.exists_output {outputs : TaskIndex → List JobEdge}
    (h : t.Producing outputs) {p : Nat} {x : Output}
    (hp : t.outputAt p = some x) :
    ∃ id, t.taskIdAt x.producer = some id ∧
      ∃ e ∈ outputs x.producer, x = e.output id.subtask x.producer := by
  have hmem := h.producer p x hp
  obtain ⟨id, hid⟩ := exists_taskIdAt (lt_of_mem_producedBy hmem)
  have hx := List.mem_map_of_mem (f := t.outputAt) hmem
  rw [h.produced x.producer id hid, hp] at hx
  obtain ⟨e, he, hex⟩ := List.mem_map.mp hx
  exact ⟨id, hid, e, he, (Option.some.inj hex).symm⟩

/-- What a task produces is a partition that points back at it. -/
theorem Producing.outputAt_of_mem {outputs : TaskIndex → List JobEdge}
    (h : t.Producing outputs) {i : Nat} {id : TaskId}
    (hi : t.taskIdAt i = some id) {p : Nat}
    (hp : p ∈ t.producedBy i) :
    ∃ e ∈ outputs i, t.outputAt p = some (e.output id.subtask i) := by
  have hx := List.mem_map_of_mem (f := t.outputAt) hp
  rw [h.produced i id hi] at hx
  obtain ⟨e, he, hex⟩ := List.mem_map.mp hx
  exact ⟨e, he, hex.symm⟩

/-- A group and its consumer group stand at the same position. -/
theorem Grouped.consumerGroup_eq (h : t.Grouped) {g : Nat}
    {group : PartitionGroup} (hg : t.groups[g]? = some group) :
    group.consumerGroup = g := by
  have hc := h.consumerGroup g (Array.getElem?_eq_some_iff.mp hg).1
  simpa [consumerGroupAt, hg] using hc

theorem Grouped.partitionGroup_eq (h : t.Grouped) {c : Nat}
    {readers : ConsumerGroup} (hc : t.consumerGroups[c]? = some readers) :
    c < t.groups.size ∧ readers.partitionGroup = c := by
  have hlt : c < t.groups.size :=
    h.size ▸ (Array.getElem?_eq_some_iff.mp hc).1
  have hg := h.partitionGroup c hlt
  exact ⟨hlt, by simpa [partitionGroupAt, hc] using hg⟩

theorem Grouped.lt_of_mem_consumersOf (h : t.Grouped) {p : Nat}
    {g : Nat} (hg : g ∈ t.consumersOf p) : g < t.groups.size :=
  lt_of_mem_partitionsIn ((h.mem_partitionsIn g p).mpr hg)

theorem Grouped.lt_of_mem_consumedBy (h : t.Grouped) {i : Nat}
    {g : Nat} (hg : g ∈ t.consumedBy i) : g < t.groups.size :=
  h.size ▸ lt_of_mem_tasksReading ((h.mem_tasksReading g i).mpr hg)

theorem Grouped.lt_of_mem_partitionsIn (h : t.Grouped) {p : Nat}
    {g : Nat} (hp : p ∈ t.partitionsIn g) : p < t.partitions.size :=
  Topology.lt_of_mem_consumersOf ((h.mem_partitionsIn g p).mp hp)

/-- A consumed group carries an edge that leads to its reader. -/
theorem Carrying.exchange_of_mem {done : List JobEdge}
    (h : t.Carrying done) {i : Nat} {id : TaskId}
    (hi : t.taskIdAt i = some id) {g : Nat}
    (hg : g ∈ t.consumedBy i) :
    ∃ e ∈ done, e.target = id.vertex ∧ t.exchangeAt g = some e.exchange := by
  have hx := List.mem_map_of_mem (f := t.exchangeAt) hg
  rw [h.consumed i id hi] at hx
  obtain ⟨e, he, hex⟩ := List.mem_map.mp hx
  obtain ⟨hdone, htarget⟩ := List.mem_filter.mp he
  exact ⟨e, hdone, by simpa using htarget, hex.symm⟩

theorem lt_of_exchanges {es : List JobEdge} {gs : List Nat}
    (h : gs.map t.exchangeAt = es.map fun e => some e.exchange) :
    ∀ g ∈ gs, g < t.groups.size := by
  intro g hg
  have hx := List.mem_map_of_mem (f := t.exchangeAt) hg
  rw [h] at hx
  obtain ⟨e, -, hx⟩ := List.mem_map.mp hx
  exact lt_of_exchangeAt hx.symm

/-- Groups that read the exchanges of different edges are different. -/
theorem nodup_of_exchanges {es : List JobEdge} {gs : List Nat}
    (hes : (es.map (·.source)).Nodup)
    (h : gs.map t.exchangeAt = es.map fun e => some e.exchange) :
    gs.Nodup := by
  apply List.Nodup.of_map t.exchangeAt
  apply List.Nodup.of_map (Option.map (·.dataSet))
  rw [h, List.map_map]
  have hsome := hes.map (Option.some_injective DataSetId)
  rw [List.map_map] at hsome
  exact hsome

end Consequences

/-! ## Changes that keep all links -/

/-- What a change keeps that leaves the links alone. -/
structure SameLinks (t t' : Topology) : Prop where
  taskIndex : t'.taskIndex = t.taskIndex
  partitionIndex : t'.partitionIndex = t.partitionIndex
  dataSetGroups : t'.dataSetGroups = t.dataSetGroups
  groups : t'.groups = t.groups
  consumerGroups : t'.consumerGroups = t.consumerGroups
  taskIdAt : t'.taskIdAt = t.taskIdAt
  producedBy : t'.producedBy = t.producedBy
  consumedBy : t'.consumedBy = t.consumedBy
  outputAt : t'.outputAt = t.outputAt
  consumersOf : t'.consumersOf = t.consumersOf

namespace SameLinks

variable {t t' : Topology} (h : SameLinks t t')

include h

theorem exchangeAt : t'.exchangeAt = t.exchangeAt := by
  funext g
  rw [Topology.exchangeAt, Topology.exchangeAt, h.groups]

theorem partitionsIn : t'.partitionsIn = t.partitionsIn := by
  funext g
  rw [Topology.partitionsIn, Topology.partitionsIn, h.groups]

theorem consumerGroupAt : t'.consumerGroupAt = t.consumerGroupAt := by
  funext g
  rw [Topology.consumerGroupAt, Topology.consumerGroupAt, h.groups]

theorem tasksReading : t'.tasksReading = t.tasksReading := by
  funext c
  rw [Topology.tasksReading, Topology.tasksReading, h.consumerGroups]

theorem partitionGroupAt : t'.partitionGroupAt = t.partitionGroupAt := by
  funext c
  rw [Topology.partitionGroupAt, Topology.partitionGroupAt,
    h.consumerGroups]

theorem indexed (hindexed : t.Indexed) : t'.Indexed where
  tasks := by
    rw [h.taskIndex, h.taskIdAt]
    exact hindexed.tasks
  partitions := by
    rw [h.partitionIndex, h.outputAt]
    exact hindexed.partitions

theorem producing {outputs : TaskIndex → List JobEdge}
    (hproducing : t.Producing outputs) : t'.Producing outputs where
  produced := by
    rw [h.taskIdAt, h.producedBy, h.outputAt]
    exact hproducing.produced
  producer := by
    rw [h.producedBy, h.outputAt]
    exact hproducing.producer

theorem grouped (hgrouped : t.Grouped) : t'.Grouped where
  size := by
    rw [h.groups, h.consumerGroups]
    exact hgrouped.size
  consumerGroup := by
    rw [h.groups, h.consumerGroupAt]
    exact hgrouped.consumerGroup
  partitionGroup := by
    rw [h.groups, h.partitionGroupAt]
    exact hgrouped.partitionGroup
  mem_partitionsIn := by
    rw [h.partitionsIn, h.consumersOf]
    exact hgrouped.mem_partitionsIn
  mem_tasksReading := by
    rw [h.tasksReading, h.consumedBy]
    exact hgrouped.mem_tasksReading
  nodup_partitionsIn := by
    rw [h.partitionsIn]
    exact hgrouped.nodup_partitionsIn
  nodup_tasksReading := by
    rw [h.tasksReading]
    exact hgrouped.nodup_tasksReading

theorem carrying {done : List JobEdge} (hcarrying : t.Carrying done) :
    t'.Carrying done where
  exchange := by
    rw [h.exchangeAt]
    exact hcarrying.exchange
  dataSet := by
    rw [h.partitionsIn, h.outputAt, h.exchangeAt]
    exact hcarrying.dataSet
  consumed := by
    rw [h.taskIdAt, h.consumedBy, h.exchangeAt]
    exact hcarrying.consumed
  connected := by
    rw [h.outputAt, h.consumersOf]
    exact hcarrying.connected
  dataSetGroups := by
    rw [h.dataSetGroups, h.exchangeAt]
    exact hcarrying.dataSetGroups
  shuffled := by
    rw [h.dataSetGroups]
    exact hcarrying.shuffled

end SameLinks

/-! ## A task behind the others -/

section PushTask

variable {t : Topology} {task : Task}

theorem taskIdAt_size : t.taskIdAt t.tasks.size = none := by
  simp [taskIdAt]

theorem Indexed.pushTask (h : t.Indexed)
    (fresh : ∀ i, t.taskIdAt i ≠ some task.id) :
    (t.pushTask task).Indexed where
  tasks := by
    have hstep := h.tasks.insert taskIdAt_size fresh
    intro id i
    rw [taskIdAt_pushTask]
    exact hstep id i
  partitions := h.partitions

theorem Producing.pushTask {outputs : TaskIndex → List JobEdge}
    (h : t.Producing outputs) (hproduced : task.produced = []) :
    (t.pushTask task).Producing
      (Function.update outputs t.tasks.size []) where
  produced := by
    intro i id hi
    rw [taskIdAt_pushTask] at hi
    rw [producedBy_pushTask, Function.update_apply]
    split
    · rw [hproduced]
      rfl
    · rename_i hne
      rw [if_neg hne] at hi
      exact h.produced i id hi
  producer := by
    intro p x hp
    have hmem := h.producer p x hp
    rw [producedBy_pushTask,
      if_neg (Nat.ne_of_lt (lt_of_mem_producedBy hmem))]
    exact hmem

theorem Grouped.pushTask (h : t.Grouped) (hconsumed : task.consumed = []) :
    (t.pushTask task).Grouped where
  size := h.size
  consumerGroup := h.consumerGroup
  partitionGroup := h.partitionGroup
  mem_partitionsIn := h.mem_partitionsIn
  mem_tasksReading := by
    intro g i
    rw [consumedBy_pushTask]
    split
    · rename_i hi
      rw [hconsumed]
      have hnot := (h.mem_tasksReading g i).not.mpr (by
        intro hg
        exact Nat.ne_of_lt (Topology.lt_of_mem_consumedBy hg) hi)
      exact iff_of_false hnot (List.not_mem_nil)
    · exact h.mem_tasksReading g i
  nodup_partitionsIn := h.nodup_partitionsIn
  nodup_tasksReading := h.nodup_tasksReading

/-- The consumed groups of a new task have to be those of the edges that
lead to it. -/
theorem Carrying.pushTask {done : List JobEdge} (h : t.Carrying done)
    (hconsumed : task.consumed.map t.exchangeAt =
      (done.filter (·.target = task.id.vertex)).map
        fun e => some e.exchange) :
    (t.pushTask task).Carrying done where
  exchange := h.exchange
  dataSet := h.dataSet
  consumed := by
    intro i id hi
    rw [taskIdAt_pushTask] at hi
    rw [consumedBy_pushTask]
    split
    · rename_i heq
      rw [if_pos heq] at hi
      rw [← Option.some.inj hi]
      exact hconsumed
    · rename_i hne
      rw [if_neg hne] at hi
      exact h.consumed i id hi
  connected := h.connected
  dataSetGroups := h.dataSetGroups
  shuffled := h.shuffled

end PushTask

/-! ## A partition behind the others -/

section AddPartition

variable {t : Topology} {i : Nat} {e : JobEdge} {k : Nat}

theorem outputAt_size : t.outputAt t.partitions.size = none := by
  simp [outputAt]

theorem Indexed.addPartition (h : t.Indexed)
    (fresh : ∀ p x, t.outputAt p = some x → x.id ≠ ⟨e.source, k⟩) :
    (t.addPartition i e k).Indexed where
  tasks := by
    intro id j
    rw [taskIdAt_addPartition]
    exact h.tasks id j
  partitions := by
    have hstep := h.partitions.insert (n := t.partitions.size)
      (k := ⟨e.source, k⟩) (by simp [outputAt_size]) (by
        intro p hp
        obtain ⟨x, hx, hid⟩ := Option.map_eq_some_iff.mp hp
        exact fresh p x hx hid)
    intro id p
    show _ ↔ ((t.addPartition i e k).outputAt p).map (·.id) = some id
    rw [outputAt_addPartition, apply_ite (Option.map _)]
    exact hstep id p

theorem Producing.addPartition {outputs : TaskIndex → List JobEdge}
    (h : t.Producing outputs) {id : TaskId} (hi : t.taskIdAt i = some id)
    (hk : id.subtask = k) :
    (t.addPartition i e k).Producing
      (Function.update outputs i (outputs i ++ [e])) where
  produced := by
    intro j id' hj
    rw [taskIdAt_addPartition] at hj
    rw [producedBy_addPartition (lt_of_taskIdAt hi), Function.update_apply]
    -- Partitions that were there before still are what they were.
    have hold : ∀ j id', t.taskIdAt j = some id' →
        (t.producedBy j).map (t.addPartition i e k).outputAt =
          (t.producedBy j).map t.outputAt := by
      intro j id' hj
      apply List.map_congr_left
      intro p hp
      obtain ⟨e', -, hx⟩ := h.outputAt_of_mem hj hp
      rw [outputAt_addPartition, if_neg (Nat.ne_of_lt (lt_of_outputAt hx))]
    split
    · rename_i hji
      subst hji
      rw [hi, Option.some.injEq] at hj
      subst hj
      rw [List.map_append, List.map_append, hold j id hi,
        h.produced j id hi, List.map_singleton, List.map_singleton,
        outputAt_addPartition, if_pos rfl, hk]
    · rw [hold j id' hj, h.produced j id' hj]
  producer := by
    intro p x hp
    rw [outputAt_addPartition] at hp
    rw [producedBy_addPartition (lt_of_taskIdAt hi)]
    split at hp
    · rename_i heq
      subst heq
      cases hp
      simp [JobEdge.output]
    · have hmem := h.producer p x hp
      split
      · rename_i hx
        exact List.mem_append_left _ (hx ▸ hmem)
      · exact hmem

theorem Grouped.addPartition (h : t.Grouped) :
    (t.addPartition i e k).Grouped where
  size := h.size
  consumerGroup := h.consumerGroup
  partitionGroup := h.partitionGroup
  mem_partitionsIn := by
    intro g p
    rw [consumersOf_addPartition]
    exact h.mem_partitionsIn g p
  mem_tasksReading := by
    intro g j
    rw [consumedBy_addPartition]
    exact h.mem_tasksReading g j
  nodup_partitionsIn := h.nodup_partitionsIn
  nodup_tasksReading := h.nodup_tasksReading

/-- A partition nobody reads belongs to a dataset of no connected edge. -/
theorem Carrying.addPartition {done : List JobEdge} (h : t.Carrying done)
    (hgrouped : t.Grouped) (hdone : done.countP (·.source = e.source) = 0) :
    (t.addPartition i e k).Carrying done where
  exchange := h.exchange
  dataSet := by
    intro g p hp
    have hlt := hgrouped.lt_of_mem_partitionsIn (g := g) hp
    rw [outputAt_addPartition, if_neg (Nat.ne_of_lt hlt)]
    exact h.dataSet g p hp
  consumed := by
    intro j id hj
    rw [taskIdAt_addPartition] at hj
    rw [consumedBy_addPartition]
    exact h.consumed j id hj
  connected := by
    intro p x hp
    rw [outputAt_addPartition] at hp
    rw [consumersOf_addPartition]
    split at hp
    · rename_i heq
      cases hp
      have hempty : t.consumersOf t.partitions.size = [] := by
        simp [consumersOf]
      rw [heq, hempty]
      exact hdone.symm
    · exact h.connected p x hp
  dataSetGroups := h.dataSetGroups
  shuffled := h.shuffled

end AddPartition

end Topology

end ControlPlane
