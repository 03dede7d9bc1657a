import Mathlib
import ControlPlane.Topology.Expand
import ControlPlane.Topology.Extend
import ControlPlane.Proofs.Sequence

/-!
# Links of a topology

Tasks, partitions and groups refer to each other by position. This module
reads the single links off a topology and says what every step of expanding
and extending does to each of them; nothing behind it unfolds a step again.
A link that leads nowhere is the empty list.
-/

namespace ControlPlane

/-- What a partition is, apart from who reads it. -/
structure Output where
  id : PartitionId
  kind : ResultKind
  producer : TaskIndex
deriving DecidableEq, Repr

/-- What a group reads, apart from who reads it. -/
structure Exchange where
  dataSet : DataSetId
  kind : ResultKind
  pattern : Pattern
deriving DecidableEq, Repr

/-- What is read through an edge. -/
def JobEdge.exchange (e : JobEdge) : Exchange := ⟨e.source, e.kind, e.pattern⟩

/-- What the partition of an edge is that a task produces. -/
def JobEdge.output (e : JobEdge) (number : Nat) (producer : TaskIndex) :
    Output := ⟨⟨e.source, number⟩, e.kind, producer⟩

namespace Topology

/-! ## Reading links -/

/-- The id of the task at a position. -/
def taskIdAt (t : Topology) (i : TaskIndex) : Option TaskId :=
  t.tasks[i]?.map (·.id)

/-- The partitions that a task produces. -/
def producedBy (t : Topology) (i : TaskIndex) : List PartitionIndex :=
  (t.tasks[i]?.map (·.produced)).getD []

/-- The groups that a task consumes. -/
def consumedBy (t : Topology) (i : TaskIndex) : List GroupIndex :=
  (t.tasks[i]?.map (·.consumed)).getD []

/-- The current attempt of a task. -/
def attemptAt (t : Topology) (i : TaskIndex) : Option Attempt :=
  t.tasks[i]?.bind (·.attempt)

/-- The partition at a position, apart from who reads it. -/
def outputAt (t : Topology) (p : PartitionIndex) : Option Output :=
  t.partitions[p]?.map fun part => ⟨part.id, part.kind, part.producer⟩

/-- The consumer groups of a partition. -/
def consumersOf (t : Topology) (p : PartitionIndex) :
    List ConsumerGroupIndex :=
  (t.partitions[p]?.map (·.consumerGroups)).getD []

/-- What the group at a position reads. -/
def exchangeAt (t : Topology) (g : GroupIndex) : Option Exchange :=
  t.groups[g]?.map fun group => ⟨group.dataSet, group.kind, group.pattern⟩

/-- The partitions of a group. -/
def partitionsIn (t : Topology) (g : GroupIndex) : List PartitionIndex :=
  (t.groups[g]?.map (·.partitions)).getD []

/-- The consumer group of a group. -/
def consumerGroupAt (t : Topology) (g : GroupIndex) :
    Option ConsumerGroupIndex := t.groups[g]?.map (·.consumerGroup)

/-- The tasks of a consumer group. -/
def tasksReading (t : Topology) (c : ConsumerGroupIndex) : List TaskIndex :=
  (t.consumerGroups[c]?.map (·.tasks)).getD []

/-- The group that a consumer group reads. -/
def partitionGroupAt (t : Topology) (c : ConsumerGroupIndex) :
    Option GroupIndex := t.consumerGroups[c]?.map (·.partitionGroup)

section Reading

variable {t : Topology}

theorem taskIdAt_isSome {i : Nat} :
    (t.taskIdAt i).isSome ↔ i < t.tasks.size := by
  simp [taskIdAt, Option.isSome_map]

theorem lt_of_taskIdAt {i : Nat} {id : TaskId}
    (h : t.taskIdAt i = some id) : i < t.tasks.size :=
  taskIdAt_isSome.mp (h ▸ rfl)

theorem exists_taskIdAt {i : Nat} (h : i < t.tasks.size) :
    ∃ id, t.taskIdAt i = some id :=
  Option.isSome_iff_exists.mp (taskIdAt_isSome.mpr h)

theorem lt_of_outputAt {p : Nat} {x : Output}
    (h : t.outputAt p = some x) : p < t.partitions.size := by
  obtain ⟨part, hp, -⟩ := Option.map_eq_some_iff.mp h
  exact (Array.getElem?_eq_some_iff.mp hp).1

theorem exists_outputAt {p : Nat} (h : p < t.partitions.size) :
    ∃ x, t.outputAt p = some x := by
  simp [outputAt, h]

theorem lt_of_exchangeAt {g : Nat} {x : Exchange}
    (h : t.exchangeAt g = some x) : g < t.groups.size := by
  obtain ⟨group, hg, -⟩ := Option.map_eq_some_iff.mp h
  exact (Array.getElem?_eq_some_iff.mp hg).1

theorem exists_exchangeAt {g : Nat} (h : g < t.groups.size) :
    ∃ x, t.exchangeAt g = some x := by
  simp [exchangeAt, h]

theorem lt_of_mem_producedBy {i : Nat} {p : Nat}
    (h : p ∈ t.producedBy i) : i < t.tasks.size := by
  by_contra hlt
  simp [producedBy, Array.getElem?_eq_none (Nat.le_of_not_lt hlt)] at h

theorem lt_of_mem_consumedBy {i : Nat} {g : Nat}
    (h : g ∈ t.consumedBy i) : i < t.tasks.size := by
  by_contra hlt
  simp [consumedBy, Array.getElem?_eq_none (Nat.le_of_not_lt hlt)] at h

theorem lt_of_mem_consumersOf {p : Nat} {c : Nat}
    (h : c ∈ t.consumersOf p) : p < t.partitions.size := by
  by_contra hlt
  simp [consumersOf, Array.getElem?_eq_none (Nat.le_of_not_lt hlt)] at h

theorem lt_of_mem_partitionsIn {g : Nat} {p : Nat}
    (h : p ∈ t.partitionsIn g) : g < t.groups.size := by
  by_contra hlt
  simp [partitionsIn, Array.getElem?_eq_none (Nat.le_of_not_lt hlt)] at h

theorem lt_of_mem_tasksReading {c : Nat} {i : Nat}
    (h : i ∈ t.tasksReading c) : c < t.consumerGroups.size := by
  by_contra hlt
  simp [tasksReading, Array.getElem?_eq_none (Nat.le_of_not_lt hlt)] at h

end Reading

/-! ## Records and links -/

section Records

variable {t : Topology}

section Task

variable {i : Nat} {task : Task} (h : t.tasks[i]? = some task)

include h

theorem taskIdAt_of_getElem? : t.taskIdAt i = some task.id := by
  rw [taskIdAt, h]
  rfl

theorem producedBy_of_getElem? : t.producedBy i = task.produced := by
  rw [producedBy, h]
  rfl

theorem consumedBy_of_getElem? : t.consumedBy i = task.consumed := by
  rw [consumedBy, h]
  rfl

end Task

theorem exists_of_mem_tasks {task : Task} (h : task ∈ t.tasks) :
    ∃ i, t.taskIdAt i = some task.id ∧ t.producedBy i = task.produced ∧
      t.consumedBy i = task.consumed := by
  obtain ⟨i, hi⟩ := Array.mem_iff_getElem?.mp h
  exact ⟨i, taskIdAt_of_getElem? hi, producedBy_of_getElem? hi,
    consumedBy_of_getElem? hi⟩

section Partition

variable {p : Nat} {part : Partition} (h : t.partitions[p]? = some part)

include h

theorem outputAt_of_getElem? :
    t.outputAt p = some ⟨part.id, part.kind, part.producer⟩ := by
  rw [outputAt, h]
  rfl

theorem consumersOf_of_getElem? : t.consumersOf p = part.consumerGroups := by
  rw [consumersOf, h]
  rfl

end Partition

theorem exists_of_mem_partitions {part : Partition}
    (h : part ∈ t.partitions) :
    ∃ p, t.outputAt p = some ⟨part.id, part.kind, part.producer⟩ ∧
      t.consumersOf p = part.consumerGroups := by
  obtain ⟨p, hp⟩ := Array.mem_iff_getElem?.mp h
  exact ⟨p, outputAt_of_getElem? hp, consumersOf_of_getElem? hp⟩

theorem exists_of_mem_groups {group : PartitionGroup} (h : group ∈ t.groups) :
    ∃ g < t.groups.size, t.partitionsIn g = group.partitions ∧
      t.consumerGroupAt g = some group.consumerGroup := by
  obtain ⟨g, hg⟩ := Array.mem_iff_getElem?.mp h
  exact ⟨g, (Array.getElem?_eq_some_iff.mp hg).1, by simp [partitionsIn, hg],
    by simp [consumerGroupAt, hg]⟩

theorem exists_of_mem_consumerGroups {readers : ConsumerGroup}
    (h : readers ∈ t.consumerGroups) :
    ∃ c < t.consumerGroups.size, t.tasksReading c = readers.tasks ∧
      t.partitionGroupAt c = some readers.partitionGroup := by
  obtain ⟨c, hc⟩ := Array.mem_iff_getElem?.mp h
  exact ⟨c, (Array.getElem?_eq_some_iff.mp hc).1, by simp [tasksReading, hc],
    by simp [partitionGroupAt, hc]⟩

end Records

/-! ## A new task -/

/-- Puts a task behind the others. -/
def pushTask (t : Topology) (task : Task) : Topology :=
  { t with
    tasks := t.tasks.push task
    taskIndex := t.taskIndex.insert task.id t.tasks.size }

section PushTask

variable (t : Topology) (task : Task)

theorem taskIdAt_pushTask (i : Nat) :
    (t.pushTask task).taskIdAt i =
      if i = t.tasks.size then some task.id else t.taskIdAt i := by
  rw [taskIdAt, pushTask, Array.getElem?_push]
  split <;> rfl

theorem producedBy_pushTask (i : Nat) :
    (t.pushTask task).producedBy i =
      if i = t.tasks.size then task.produced else t.producedBy i := by
  rw [producedBy, pushTask, Array.getElem?_push]
  split <;> rfl

theorem attemptAt_pushTask (i : Nat) :
    (t.pushTask task).attemptAt i =
      if i = t.tasks.size then task.attempt else t.attemptAt i := by
  rw [attemptAt, pushTask, Array.getElem?_push]
  split <;> rfl

theorem consumedBy_pushTask (i : Nat) :
    (t.pushTask task).consumedBy i =
      if i = t.tasks.size then task.consumed else t.consumedBy i := by
  rw [consumedBy, pushTask, Array.getElem?_push]
  split <;> rfl

end PushTask

/-! ## A new partition -/

section AddPartition

variable {t : Topology} {i : Nat} {e : JobEdge} {k : Nat}

@[simp] theorem taskIdAt_addPartition (j : Nat) :
    (t.addPartition i e k).taskIdAt j = t.taskIdAt j := by
  simp only [taskIdAt, addPartition, Array.getElem?_modify]
  split <;> cases t.tasks[j]? <;> rfl

@[simp] theorem consumedBy_addPartition (j : Nat) :
    (t.addPartition i e k).consumedBy j = t.consumedBy j := by
  simp only [consumedBy, addPartition, Array.getElem?_modify]
  split <;> cases t.tasks[j]? <;> rfl

@[simp] theorem attemptAt_addPartition (j : Nat) :
    (t.addPartition i e k).attemptAt j = t.attemptAt j := by
  simp only [attemptAt, addPartition, Array.getElem?_modify]
  split <;> cases t.tasks[j]? <;> rfl

theorem producedBy_addPartition (hi : i < t.tasks.size) (j : Nat) :
    (t.addPartition i e k).producedBy j =
      if j = i then t.producedBy i ++ [t.partitions.size]
      else t.producedBy j := by
  simp only [producedBy, addPartition, Array.getElem?_modify]
  by_cases hij : i = j
  · subst hij
    simp [hi]
  · simp [hij, Ne.symm hij]

theorem outputAt_addPartition (p : Nat) :
    (t.addPartition i e k).outputAt p =
      if p = t.partitions.size then some (e.output k i)
      else t.outputAt p := by
  simp only [outputAt, addPartition, Array.getElem?_push]
  split <;> rfl

@[simp] theorem consumersOf_addPartition (p : Nat) :
    (t.addPartition i e k).consumersOf p = t.consumersOf p := by
  simp only [consumersOf, addPartition, Array.getElem?_push]
  split
  · rename_i hp
    simp [hp]
  · rfl

@[simp] theorem size_tasks_addPartition :
    (t.addPartition i e k).tasks.size = t.tasks.size := by
  simp [addPartition]

@[simp] theorem size_partitions_addPartition :
    (t.addPartition i e k).partitions.size = t.partitions.size + 1 := by
  simp [addPartition]

end AddPartition

/-! ## A new group -/

section AddGroup

variable {t : Topology} {e : JobEdge} {w : Wire}

@[simp] theorem size_groups_addGroup :
    (addGroup e t w).groups.size = t.groups.size + 1 := by
  simp [addGroup]

@[simp] theorem size_consumerGroups_addGroup :
    (addGroup e t w).consumerGroups.size = t.consumerGroups.size + 1 := by
  simp [addGroup]

@[simp] theorem size_tasks_addGroup :
    (addGroup e t w).tasks.size = t.tasks.size := by
  simp [addGroup]

@[simp] theorem size_partitions_addGroup :
    (addGroup e t w).partitions.size = t.partitions.size := by
  simp [addGroup]

@[simp] theorem exchangeAt_addGroup (g : Nat) :
    (addGroup e t w).exchangeAt g =
      if g = t.groups.size then some e.exchange else t.exchangeAt g := by
  simp only [exchangeAt, addGroup, Array.getElem?_push]
  split <;> rfl

@[simp] theorem partitionsIn_addGroup (g : Nat) :
    (addGroup e t w).partitionsIn g =
      if g = t.groups.size then w.partitions else t.partitionsIn g := by
  simp only [partitionsIn, addGroup, Array.getElem?_push]
  split <;> rfl

@[simp] theorem consumerGroupAt_addGroup (g : Nat) :
    (addGroup e t w).consumerGroupAt g =
      if g = t.groups.size then some t.consumerGroups.size
      else t.consumerGroupAt g := by
  simp only [consumerGroupAt, addGroup, Array.getElem?_push]
  split <;> rfl

@[simp] theorem tasksReading_addGroup (c : Nat) :
    (addGroup e t w).tasksReading c =
      if c = t.consumerGroups.size then w.consumers
      else t.tasksReading c := by
  simp only [tasksReading, addGroup, Array.getElem?_push]
  split <;> rfl

@[simp] theorem partitionGroupAt_addGroup (c : Nat) :
    (addGroup e t w).partitionGroupAt c =
      if c = t.consumerGroups.size then some t.groups.size
      else t.partitionGroupAt c := by
  simp only [partitionGroupAt, addGroup, Array.getElem?_push]
  split <;> rfl

variable (hps : w.partitions.Nodup) (hcs : w.consumers.Nodup)

include hcs in
theorem taskIdAt_addGroup (i : Nat) :
    (addGroup e t w).taskIdAt i = t.taskIdAt i := by
  simp only [taskIdAt, addGroup, getElem?_foldl_modify hcs]
  split <;> cases t.tasks[i]? <;> rfl

include hcs in
theorem producedBy_addGroup (i : Nat) :
    (addGroup e t w).producedBy i = t.producedBy i := by
  simp only [producedBy, addGroup, getElem?_foldl_modify hcs]
  split <;> cases t.tasks[i]? <;> rfl

include hcs in
theorem consumedBy_addGroup (hbound : ∀ i ∈ w.consumers, i < t.tasks.size)
    (i : Nat) :
    (addGroup e t w).consumedBy i =
      if i ∈ w.consumers then t.consumedBy i ++ [t.groups.size]
      else t.consumedBy i := by
  simp only [consumedBy, addGroup, getElem?_foldl_modify hcs]
  split
  · rename_i hi
    simp [hbound i hi]
  · rfl

include hps in
theorem outputAt_addGroup (p : Nat) :
    (addGroup e t w).outputAt p = t.outputAt p := by
  simp only [outputAt, addGroup, getElem?_foldl_modify hps]
  split <;> cases t.partitions[p]? <;> rfl

include hps in
theorem consumersOf_addGroup
    (hbound : ∀ p ∈ w.partitions, p < t.partitions.size)
    (p : Nat) :
    (addGroup e t w).consumersOf p =
      if p ∈ w.partitions then t.consumersOf p ++ [t.consumerGroups.size]
      else t.consumersOf p := by
  simp only [consumersOf, addGroup, getElem?_foldl_modify hps]
  split
  · rename_i hp
    simp [hbound p hp]
  · rfl

end AddGroup

end Topology

end ControlPlane
