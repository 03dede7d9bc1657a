import Mathlib
import ControlPlane.Proofs.Topology.InRange

/-!
# Expanding keeps positions in range

Whatever a job graph looks like, a task, a partition or a group that is added
refers to others that are there, and the old ones stay where they are. So
every position that is stored while a topology is expanded is that of a
record, even if ids or datasets are used several times.
-/

namespace ControlPlane

/-- Positions stay in range when one more record is added. -/
theorem lt_succ_of_forall {is : List Nat} {n : Nat} (h : ∀ i ∈ is, i < n) :
    ∀ i ∈ is, i < n + 1 := fun i hi => Nat.lt_succ_of_lt (h i hi)

/-- The position of the next record can be stored once it is there. -/
theorem lt_succ_of_append {is : List Nat} {n : Nat}
    (h : ∀ i ∈ is, i < n + 1) : ∀ i ∈ is ++ [n], i < n + 1 := by
  intro i hi
  rcases List.mem_append.mp hi with hi | hi
  · exact h i hi
  · rw [List.mem_singleton.mp hi]
    exact Nat.lt_succ_self n

/-- What is indexed stays in range when the next record is indexed. -/
theorem lt_succ_of_insert {κ : Type*} [Ord κ] [Std.TransOrd κ]
    [Std.LawfulEqOrd κ] {index : Std.TreeMap κ Nat} {n : Nat}
    (h : ∀ (k : κ) (i : Nat), index[k]? = some i → i < n) {key : κ} :
    ∀ (k : κ) (i : Nat), (index.insert key n)[k]? = some i → i < n + 1 := by
  intro k i hi
  rw [Std.TreeMap.getElem?_insert] at hi
  split at hi
  · cases hi
    exact Nat.lt_succ_self n
  · exact Nat.lt_succ_of_lt (h k i hi)

namespace Topology

/-! ## Wires -/

theorem mem_of_mem_slice {α : Type*} {xs : List α} {start stop : Nat} {x : α}
    (h : x ∈ Wire.slice xs.toArray start stop) : x ∈ xs := by
  have hslice : Wire.slice xs.toArray start stop =
      (xs.drop start).take (stop - start) := by
    simp [Wire.slice]
  rw [hslice] at h
  exact List.mem_of_mem_drop (List.mem_of_mem_take h)

/-- A wire has only partitions and consumers of its edge. -/
theorem mem_of_mem_ofPattern {pattern : Pattern} {ps : List PartitionIndex}
    {cs : List TaskIndex} {w : Wire} (hw : w ∈ Wire.ofPattern pattern ps cs) :
    (∀ p ∈ w.partitions, p ∈ ps) ∧ ∀ c ∈ w.consumers, c ∈ cs := by
  cases pattern with
  | allToAll =>
    rw [List.mem_singleton.mp hw]
    exact ⟨fun _ => id, fun _ => id⟩
  | pointwise =>
    simp only [Wire.ofPattern, Wire.pointwise] at hw
    split at hw
    · obtain ⟨i, hi, rfl⟩ := List.mem_iff_getElem.mp hw
      simp
    · split at hw
      · obtain ⟨⟨c, i⟩, hc, rfl⟩ := List.mem_map.mp hw
        refine ⟨fun p hp => mem_of_mem_slice hp, fun c' hc' => ?_⟩
        rw [List.mem_singleton.mp hc']
        exact List.fst_mem_of_mem_zipIdx hc
      · obtain ⟨⟨p, i⟩, hp, rfl⟩ := List.mem_map.mp hw
        refine ⟨fun p' hp' => ?_, fun c hc => mem_of_mem_slice hc⟩
        rw [List.mem_singleton.mp hp']
        exact List.fst_mem_of_mem_zipIdx hp

/-! ## One step -/

namespace LinksInRange

variable {t : Topology} (h : t.LinksInRange)

include h

theorem pushTask (id : TaskId) : (t.pushTask { id }).LinksInRange := by
  have hsize : (t.pushTask { id }).tasks.size = t.tasks.size + 1 :=
    Array.size_push ..
  exact
    { taskIndex := by
        rw [hsize]
        exact lt_succ_of_insert h.taskIndex
      partitionIndex := h.partitionIndex
      produced := forall_mem_push h.produced (by simp)
      consumed := forall_mem_push h.consumed (by simp)
      producer := by
        rw [hsize]
        exact fun part hpart => Nat.lt_succ_of_lt (h.producer part hpart)
      consumerGroups := h.consumerGroups
      partitions := h.partitions
      consumerGroup := h.consumerGroup
      readers := by
        rw [hsize]
        exact fun readers hr => lt_succ_of_forall (h.readers readers hr)
      partitionGroup := h.partitionGroup
      dataSetGroups := h.dataSetGroups }

theorem addPartition {i : Nat} (hi : i < t.tasks.size) (edge : JobEdge)
    (number : Nat) : (t.addPartition i edge number).LinksInRange where
  taskIndex := by
    rw [size_tasks_addPartition]
    exact h.taskIndex
  partitionIndex := by
    rw [size_partitions_addPartition]
    exact lt_succ_of_insert h.partitionIndex
  produced := by
    rw [size_partitions_addPartition]
    refine forall_mem_modify (f := fun task : Task =>
      { task with produced := task.produced ++ [t.partitions.size] }) ?_ ?_
    · exact fun task htask => lt_succ_of_forall (h.produced task htask)
    · exact fun task htask => lt_succ_of_append htask
  consumed := forall_mem_modify (f := fun task : Task =>
    { task with produced := task.produced ++ [t.partitions.size] })
    h.consumed fun _ => id
  producer := by
    rw [size_tasks_addPartition]
    exact forall_mem_push h.producer hi
  consumerGroups := forall_mem_push h.consumerGroups (by simp)
  partitions := by
    rw [size_partitions_addPartition]
    exact fun group hgroup => lt_succ_of_forall (h.partitions group hgroup)
  consumerGroup := h.consumerGroup
  readers := by
    rw [size_tasks_addPartition]
    exact h.readers
  partitionGroup := h.partitionGroup
  dataSetGroups := h.dataSetGroups

theorem addSubtask (vertex : VertexId) (outputs : List JobEdge)
    (subtask : Nat) :
    (addSubtask vertex outputs t subtask).LinksInRange := by
  have hsize : (t.pushTask { id := ⟨vertex, subtask⟩ }).tasks.size =
      t.tasks.size + 1 := Array.size_push ..
  -- The producer of all the partitions is the task pushed first.
  have hfold : ∀ s : Topology, s.LinksInRange →
      t.tasks.size < s.tasks.size →
      (outputs.foldl (fun s edge => s.addPartition t.tasks.size edge subtask)
        s).LinksInRange := by
    induction outputs with
    | nil => exact fun s hs _ => hs
    | cons edge outputs ih =>
      intro s hs hlt
      exact ih _ (hs.addPartition hlt edge subtask) (by simpa using hlt)
  exact hfold _ (h.pushTask _) (hsize ▸ Nat.lt_succ_self _)

theorem addGroup {w : Wire} (hps : ∀ p ∈ w.partitions, p < t.partitions.size)
    (hcs : ∀ i ∈ w.consumers, i < t.tasks.size) (edge : JobEdge) :
    (addGroup edge t w).LinksInRange where
  taskIndex := by
    rw [size_tasks_addGroup]
    exact h.taskIndex
  partitionIndex := by
    rw [size_partitions_addGroup]
    exact h.partitionIndex
  produced := by
    rw [size_partitions_addGroup]
    exact forall_mem_foldl_modify (f := fun task : Task =>
      { task with consumed := task.consumed ++ [t.groups.size] })
      h.produced fun _ => id
  consumed := by
    rw [size_groups_addGroup]
    refine forall_mem_foldl_modify (f := fun task : Task =>
      { task with consumed := task.consumed ++ [t.groups.size] }) ?_ ?_
    · exact fun task htask => lt_succ_of_forall (h.consumed task htask)
    · exact fun task htask => lt_succ_of_append htask
  producer := by
    rw [size_tasks_addGroup]
    exact forall_mem_foldl_modify (f := fun part : Partition =>
      { part with
        consumerGroups := part.consumerGroups ++ [t.consumerGroups.size] })
      h.producer fun _ => id
  consumerGroups := by
    rw [size_consumerGroups_addGroup]
    refine forall_mem_foldl_modify (f := fun part : Partition =>
      { part with
        consumerGroups := part.consumerGroups ++ [t.consumerGroups.size] })
      ?_ ?_
    · exact fun part hpart => lt_succ_of_forall (h.consumerGroups part hpart)
    · exact fun part hpart => lt_succ_of_append hpart
  partitions := by
    rw [size_partitions_addGroup]
    exact forall_mem_push h.partitions hps
  consumerGroup := by
    rw [size_consumerGroups_addGroup]
    exact forall_mem_push
      (fun group hgroup => Nat.lt_succ_of_lt (h.consumerGroup group hgroup))
      (Nat.lt_succ_self _)
  readers := by
    rw [size_tasks_addGroup]
    exact forall_mem_push h.readers hcs
  partitionGroup := by
    rw [size_groups_addGroup]
    exact forall_mem_push
      (fun readers hr => Nat.lt_succ_of_lt (h.partitionGroup readers hr))
      (Nat.lt_succ_self _)
  dataSetGroups := by
    rw [size_groups_addGroup]
    exact fun d => lt_succ_of_forall (h.dataSetGroups d)

/-- The groups of an edge are registered once all of them are there. -/
theorem addGroups {ws : List Wire}
    (hps : ∀ w ∈ ws, ∀ p ∈ w.partitions, p < t.partitions.size)
    (hcs : ∀ w ∈ ws, ∀ i ∈ w.consumers, i < t.tasks.size) (edge : JobEdge) :
    (t.addGroups edge ws).LinksInRange := by
  have hfold : ∀ (ws : List Wire) (s : Topology), s.LinksInRange →
      (∀ w ∈ ws, ∀ p ∈ w.partitions, p < s.partitions.size) →
      (∀ w ∈ ws, ∀ i ∈ w.consumers, i < s.tasks.size) →
      (ws.foldl (Topology.addGroup edge) s).LinksInRange ∧
      (ws.foldl (Topology.addGroup edge) s).groups.size =
        s.groups.size + ws.length ∧
      (ws.foldl (Topology.addGroup edge) s).dataSetGroups =
        s.dataSetGroups := by
    intro ws
    induction ws with
    | nil => exact fun s hs _ _ => ⟨hs, rfl, rfl⟩
    | cons w ws ih =>
      intro s hs hps hcs
      obtain ⟨hw, hps⟩ := List.forall_mem_cons.mp hps
      obtain ⟨hwc, hcs⟩ := List.forall_mem_cons.mp hcs
      obtain ⟨hlinks, hsize, hsets⟩ := ih _ (hs.addGroup hw hwc edge)
        (by simpa using hps) (by simpa using hcs)
      refine ⟨hlinks, ?_, hsets⟩
      rw [List.foldl_cons, hsize, size_groups_addGroup, List.length_cons]
      omega
  obtain ⟨hlinks, hsize, hsets⟩ := hfold ws t h hps hcs
  refine { hlinks with dataSetGroups := fun d g hg => ?_ }
  show g < (ws.foldl (Topology.addGroup edge) t).groups.size
  rw [hsize]
  change g ∈ (t.dataSetGroups.insert edge.source
    (t.dataSetGroups.getD edge.source [] ++
      List.range' t.groups.size ws.length)).getD d [] at hg
  rw [Std.TreeMap.getD_insert] at hg
  split at hg
  · rcases List.mem_append.mp hg with hg | hg
    · exact Nat.lt_add_right _ (h.dataSetGroups edge.source g hg)
    · exact (List.mem_range'_1.mp hg).2
  · exact Nat.lt_add_right _ (h.dataSetGroups d g hg)

end LinksInRange

end Topology

end ControlPlane
