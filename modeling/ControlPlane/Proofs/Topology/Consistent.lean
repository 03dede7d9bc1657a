import Mathlib
import ControlPlane.Proofs.Topology.Reachable

/-!
# References agree in every reachable topology

Everything in a topology refers to everything else by position, and many
references exist in both directions. `Topology.Consistent` says, in terms of
the stored records alone, that they agree; it holds of every topology that
can be reached.
-/

namespace ControlPlane

namespace Topology

/-- All references of a topology agree. -/
structure Consistent (t : Topology) : Prop where
  /-- The index of the tasks is the inverse of their ids. -/
  taskIndex : ∀ id (i : Nat),
    t.taskIndex[id]? = some i ↔ t.tasks[i]?.map (·.id) = some id
  /-- The index of the partitions is the inverse of their ids. -/
  partitionIndex : ∀ id (p : Nat),
    t.partitionIndex[id]? = some p ↔ t.partitions[p]?.map (·.id) = some id
  taskIds : (t.tasks.toList.map (·.id)).Nodup
  partitionIds : (t.partitions.toList.map (·.id)).Nodup
  /-- Every vertex has exactly one operator. -/
  operators : (t.operators.map (·.id)).Perm (t.graph.vertices.map (·.id))
  vertexIds : (t.graph.vertices.map (·.id)).Nodup
  /-- The stored job graph has the parallelism of the operators. -/
  parallelism : ∀ o ∈ t.operators, ∀ v ∈ t.graph.vertices,
    v.id = o.id → v.parallelism = o.parallelism
  /-- The tasks of an operator are its subtasks in order. -/
  subtasks : ∀ o ∈ t.operators, o.tasks.map (t.tasks[·]?.map (·.id)) =
    (List.range o.parallelism).map fun k => some ⟨o.id, k⟩
  /-- Every task is the subtask of an operator that its id names. -/
  operator : ∀ (i : Nat) task, t.tasks[i]? = some task → ∃ o ∈ t.operators,
    o.id = task.id.vertex ∧ o.tasks[task.id.subtask]? = some i
  /-- A task produces one partition for each outbound dataset, numbered by
  the subtask, which points back at the task. -/
  produced : ∀ (i : Nat) task, t.tasks[i]? = some task →
    task.produced.map (t.partitions[·]?.map fun p => (p.id, p.producer)) =
      (t.graph.outputsOf task.id.vertex).map fun e =>
        some (⟨e.source, task.id.subtask⟩, i)
  /-- No vertex has two outbound edges of one dataset. -/
  outbound : ∀ id, ((t.graph.outputsOf id).map (·.source)).Nodup
  /-- The producer of a partition lists it. -/
  producer : ∀ (p : Nat) part, t.partitions[p]? = some part →
    ∃ task, t.tasks[part.producer]? = some task ∧ p ∈ task.produced
  /-- The consumer group of a group refers to it. -/
  consumerGroup : ∀ (g : Nat) group, t.groups[g]? = some group →
    t.consumerGroups[group.consumerGroup]?.map (·.partitionGroup) = some g
  /-- The group of a consumer group refers to it. -/
  partitionGroup : ∀ (c : Nat) readers, t.consumerGroups[c]? = some readers →
    t.groups[readers.partitionGroup]?.map (·.consumerGroup) = some c
  /-- A group lists a partition if the partition lists the consumer group of
  the group, and only then. -/
  mem_partitions : ∀ (g p : Nat) group part, t.groups[g]? = some group →
    t.partitions[p]? = some part →
    (p ∈ group.partitions ↔ group.consumerGroup ∈ part.consumerGroups)
  /-- A consumer group lists a task if the task lists the group, and only
  then. -/
  mem_tasks : ∀ (c i : Nat) readers task,
    t.consumerGroups[c]? = some readers → t.tasks[i]? = some task →
    (i ∈ readers.tasks ↔ readers.partitionGroup ∈ task.consumed)
  /-- A group lists existing partitions, each once. -/
  group_partitions : ∀ group ∈ t.groups, group.partitions.Nodup ∧
    ∀ p ∈ group.partitions, p < t.partitions.size
  /-- A consumer group lists existing tasks, each once. -/
  readers_tasks : ∀ readers ∈ t.consumerGroups, readers.tasks.Nodup ∧
    ∀ i ∈ readers.tasks, i < t.tasks.size
  /-- A task lists existing groups, each once. -/
  task_consumed : ∀ task ∈ t.tasks, task.consumed.Nodup ∧
    ∀ g ∈ task.consumed, g < t.groups.size
  /-- A partition has exactly one consumer group. -/
  partition_consumers : ∀ part ∈ t.partitions,
    ∃ c < t.consumerGroups.size, part.consumerGroups = [c]

/-! ## Whole topologies are consistent -/

section Whole

variable {t : Topology}

theorem Indexed.nodup_taskIds (h : t.Indexed) :
    (t.tasks.toList.map (·.id)).Nodup := by
  rw [List.nodup_iff_injective_getElem]
  intro i j hij
  have hi := i.isLt
  have hj := j.isLt
  simp only [List.length_map, Array.length_toList] at hi hj
  simp only [List.getElem_map, Array.getElem_toList] at hij
  have hid : t.taskIdAt i.val = some t.tasks[i.val].id := by
    simp [taskIdAt, hi]
  exact Fin.ext (h.taskId_inj hid (by simp [taskIdAt, hj, hij]))

theorem Indexed.nodup_partitionIds (h : t.Indexed) :
    (t.partitions.toList.map (·.id)).Nodup := by
  rw [List.nodup_iff_injective_getElem]
  intro p q hpq
  have hp := p.isLt
  have hq := q.isLt
  simp only [List.length_map, Array.length_toList] at hp hq
  simp only [List.getElem_map, Array.getElem_toList] at hpq
  exact Fin.ext (h.partitions.inj (k := t.partitions[p.val].id)
    (by simp [outputAt, hp]) (by simp [outputAt, hq, hpq]))

theorem Whole.nodup_consumedBy (h : t.Whole) {i : Nat} {id : TaskId}
    (hi : t.taskIdAt i = some id) : (t.consumedBy i).Nodup :=
  nodup_of_exchanges
    (h.sources_nodup.sublist (List.filter_sublist.map JobEdge.source))
    (h.exchanges_of_task hi)

/-- A partition has the one consumer group of its edge. -/
theorem Whole.length_consumersOf (h : t.Whole) {p : Nat} {x : Output}
    (hp : t.outputAt p = some x) : (t.consumersOf p).length = 1 := by
  obtain ⟨id, hid, e, he, hx⟩ := h.wired.producing.exists_output hp
  rw [outputs_of_taskIdAt hid] at he
  have hedge := h.edges_perm.mem_iff.mpr (JobGraph.mem_outputsOf.mp he).1
  rw [h.wired.carrying.connected p x hp, hx]
  exact countP_key_eq_one h.sources_nodup hedge

/-! ### Operators and their tasks -/

/-- A vertex with the id of an operator is the one it was made for. -/
theorem Whole.parallelism_of_id_eq (h : t.Whole) {o : Operator}
    (ho : o ∈ t.operators) {v : JobVertex} (hv : v ∈ t.graph.vertices)
    (hid : v.id = o.id) : v.parallelism = o.parallelism := by
  obtain ⟨w, hw, how⟩ := h.staffed.vertex o ho
  have hsame : v = w := h.graph.vertex_inj hv hw (by
    rw [hid, how]
    rfl)
  rw [hsame, how]
  rfl

theorem Whole.exists_place (h : t.Whole) {i : Nat} {task : Task}
    (hi : t.tasks[i]? = some task) : ∃ o ∈ t.operators,
      o.id = task.id.vertex ∧ o.tasks[task.id.subtask]? = some i := by
  have hid := taskIdAt_of_getElem? hi
  obtain ⟨o, ho, hoid⟩ := h.owned i task.id hid
  obtain ⟨k, hk⟩ := List.mem_iff_getElem?.mp
    ((h.staffed.mem_tasks ho).mpr ⟨task.id, hid, hoid.symm⟩)
  have hsubtask := h.staffed.taskIdAt_getElem? ho hk
  rw [hid, Option.some.injEq] at hsubtask
  refine ⟨o, ho, hoid, ?_⟩
  rw [hsubtask]
  exact hk

/-! ### Tasks and their partitions -/

theorem Whole.map_produced (h : t.Whole) {i : Nat} {task : Task}
    (hi : t.tasks[i]? = some task) :
    task.produced.map (t.partitions[·]?.map fun p => (p.id, p.producer)) =
      (t.graph.outputsOf task.id.vertex).map fun e =>
        some (⟨e.source, task.id.subtask⟩, i) := by
  have hid := taskIdAt_of_getElem? hi
  -- The kinds of the partitions do not matter.
  have houtputs := congrArg
    (List.map (Option.map fun x : Output => (x.id, x.producer)))
    (h.wired.producing.produced i task.id hid)
  rw [outputs_of_taskIdAt hid, List.map_map, List.map_map,
    producedBy_of_getElem? hi] at houtputs
  refine Eq.trans (List.map_congr_left fun p _ => ?_) houtputs
  rw [Function.comp_apply, outputAt, Option.map_map]
  rfl

theorem Producing.exists_producer {outs : TaskIndex → List JobEdge}
    (h : t.Producing outs) {p : Nat} {part : Partition}
    (hp : t.partitions[p]? = some part) :
    ∃ task, t.tasks[part.producer]? = some task ∧ p ∈ task.produced := by
  have hmem := h.producer p _ (outputAt_of_getElem? hp)
  have htask := Array.getElem?_eq_getElem (lt_of_mem_producedBy hmem)
  rw [producedBy_of_getElem? htask] at hmem
  exact ⟨_, htask, hmem⟩

/-! ### Groups and consumer groups -/

theorem Grouped.partitionGroup_of_group (h : t.Grouped) {g : Nat}
    {group : PartitionGroup} (hg : t.groups[g]? = some group) :
    t.consumerGroups[group.consumerGroup]?.map (·.partitionGroup) =
      some g := by
  rw [h.consumerGroup_eq hg]
  exact h.partitionGroup g (Array.getElem?_eq_some_iff.mp hg).1

theorem Grouped.consumerGroup_of_readers (h : t.Grouped) {c : Nat}
    {readers : ConsumerGroup} (hc : t.consumerGroups[c]? = some readers) :
    t.groups[readers.partitionGroup]?.map (·.consumerGroup) = some c := by
  obtain ⟨hlt, heq⟩ := h.partitionGroup_eq hc
  rw [heq]
  exact h.consumerGroup c hlt

/-- A group and a partition list each other. -/
theorem Grouped.mem_partitions_iff (h : t.Grouped) {g p : Nat}
    {group : PartitionGroup} {part : Partition}
    (hg : t.groups[g]? = some group) (hp : t.partitions[p]? = some part) :
    p ∈ group.partitions ↔ group.consumerGroup ∈ part.consumerGroups := by
  have hmem := h.mem_partitionsIn g p
  rw [partitionsIn, hg, consumersOf_of_getElem? hp] at hmem
  rw [h.consumerGroup_eq hg]
  exact hmem

/-- A consumer group and a task list each other. -/
theorem Grouped.mem_tasks_iff (h : t.Grouped) {c i : Nat}
    {readers : ConsumerGroup} {task : Task}
    (hc : t.consumerGroups[c]? = some readers)
    (hi : t.tasks[i]? = some task) :
    i ∈ readers.tasks ↔ readers.partitionGroup ∈ task.consumed := by
  have hmem := h.mem_tasksReading c i
  rw [tasksReading, hc, consumedBy_of_getElem? hi] at hmem
  rw [(h.partitionGroup_eq hc).2]
  exact hmem

/-! ### Lists of positions -/

theorem Grouped.partitions_of_mem (h : t.Grouped) {group : PartitionGroup}
    (hgroup : group ∈ t.groups) : group.partitions.Nodup ∧
      ∀ p ∈ group.partitions, p < t.partitions.size := by
  obtain ⟨g, -, hlist, -⟩ := exists_of_mem_groups hgroup
  rw [← hlist]
  exact ⟨h.nodup_partitionsIn g, fun _ => h.lt_of_mem_partitionsIn⟩

theorem Grouped.tasks_of_mem (h : t.Grouped) {readers : ConsumerGroup}
    (hreaders : readers ∈ t.consumerGroups) : readers.tasks.Nodup ∧
      ∀ i ∈ readers.tasks, i < t.tasks.size := by
  obtain ⟨c, -, hlist, -⟩ := exists_of_mem_consumerGroups hreaders
  rw [← hlist]
  exact ⟨h.nodup_tasksReading c, fun i hi =>
    Topology.lt_of_mem_consumedBy ((h.mem_tasksReading c i).mp hi)⟩

theorem Whole.consumed_of_mem (h : t.Whole) {task : Task}
    (htask : task ∈ t.tasks) : task.consumed.Nodup ∧
      ∀ g ∈ task.consumed, g < t.groups.size := by
  obtain ⟨i, hi, -, hlist⟩ := exists_of_mem_tasks htask
  rw [← hlist]
  exact ⟨h.nodup_consumedBy hi, fun _ => h.wired.grouped.lt_of_mem_consumedBy⟩

theorem Whole.consumerGroups_of_mem (h : t.Whole) {part : Partition}
    (hpart : part ∈ t.partitions) :
    ∃ c < t.consumerGroups.size, part.consumerGroups = [c] := by
  obtain ⟨p, hp, hlist⟩ := exists_of_mem_partitions hpart
  obtain ⟨c, hc⟩ := List.length_eq_one_iff.mp (h.length_consumersOf hp)
  refine ⟨c, ?_, hlist ▸ hc⟩
  rw [h.wired.grouped.size]
  exact h.wired.grouped.lt_of_mem_consumersOf (p := p) (by simp [hc])

/-! ### All references -/

theorem Whole.consistent (h : t.Whole) : t.Consistent where
  taskIndex := h.wired.indexed.tasks
  partitionIndex := by
    intro id p
    have hp := h.wired.indexed.partitions id p
    simp only [outputAt, Option.map_map] at hp
    exact hp
  taskIds := h.wired.indexed.nodup_taskIds
  partitionIds := h.wired.indexed.nodup_partitionIds
  operators := h.ids
  vertexIds := h.graph.ids_nodup
  parallelism _ ho _ hv := h.parallelism_of_id_eq ho hv
  subtasks := h.staffed.tasks
  operator _ _ := h.exists_place
  produced _ _ := h.map_produced
  outbound _ := h.graph.sources.sublist (List.filter_sublist.map _)
  producer _ _ := h.wired.producing.exists_producer
  consumerGroup _ _ := h.wired.grouped.partitionGroup_of_group
  partitionGroup _ _ := h.wired.grouped.consumerGroup_of_readers
  mem_partitions _ _ _ _ := h.wired.grouped.mem_partitions_iff
  mem_tasks _ _ _ _ := h.wired.grouped.mem_tasks_iff
  group_partitions _ := h.wired.grouped.partitions_of_mem
  readers_tasks _ := h.wired.grouped.tasks_of_mem
  task_consumed _ := h.consumed_of_mem
  partition_consumers _ := h.consumerGroups_of_mem

end Whole

/-- In every topology that can be reached all references agree. -/
theorem consistent_of_reachable {t : Topology} (h : t.Reachable) :
    t.Consistent := h.whole.consistent

/-- The small job is consistent after one of its operators has grown: the
third sink reads the group that the other two read. -/
theorem consistent_of_grown_sample :
    let t := Call.run sample (.extendRegion ⟨sampleSink, 0⟩ 1)
    t.tasks.toList.map (fun task => (task.id, task.produced, task.consumed)) =
        [(⟨sampleSource, 0⟩, [0], []), (⟨sampleSource, 1⟩, [1], []),
          (⟨sampleSink, 0⟩, [], [0]), (⟨sampleSink, 1⟩, [], [0]),
          (⟨sampleSink, 2⟩, [], [0])] ∧
      t.operators.map (·.tasks) = [[0, 1], [2, 3, 4]] ∧
      t.groups.toList.map (·.partitions) = [[0, 1]] ∧
      t.consumerGroups.toList.map (·.tasks) = [[2, 3, 4]] ∧ t.Consistent :=
  ⟨by decide +kernel, by decide +kernel, by decide +kernel,
    by decide +kernel, consistent_of_reachable (.call reachable_sample _)⟩

end Topology

end ControlPlane
