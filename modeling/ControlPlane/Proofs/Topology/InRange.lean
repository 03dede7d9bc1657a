import Mathlib
import ControlPlane.Proofs.Topology.Regioned

/-!
# Stored positions are in range

Ids lead to positions, and everything in a topology refers to everything else
by position. A position that led nowhere would be passed over without a word
by the loops that follow it. No stored position does, in any topology that
can be reached, nor in those that an operator goes through while it grows.
-/

namespace ControlPlane

namespace Topology

/-- Every position that tasks, partitions and groups are stored with is that
of a record. -/
structure LinksInRange (t : Topology) : Prop where
  taskIndex : ∀ (id : TaskId) (i : Nat),
    t.taskIndex[id]? = some i → i < t.tasks.size
  partitionIndex : ∀ (id : PartitionId) (p : Nat),
    t.partitionIndex[id]? = some p → p < t.partitions.size
  produced : ∀ task ∈ t.tasks, ∀ p ∈ task.produced, p < t.partitions.size
  consumed : ∀ task ∈ t.tasks, ∀ g ∈ task.consumed, g < t.groups.size
  producer : ∀ part ∈ t.partitions, part.producer < t.tasks.size
  consumerGroups : ∀ part ∈ t.partitions, ∀ c ∈ part.consumerGroups,
    c < t.consumerGroups.size
  partitions : ∀ group ∈ t.groups, ∀ p ∈ group.partitions,
    p < t.partitions.size
  consumerGroup : ∀ group ∈ t.groups,
    group.consumerGroup < t.consumerGroups.size
  readers : ∀ readers ∈ t.consumerGroups, ∀ i ∈ readers.tasks,
    i < t.tasks.size
  partitionGroup : ∀ readers ∈ t.consumerGroups,
    readers.partitionGroup < t.groups.size
  dataSetGroups : ∀ d, ∀ g ∈ t.dataSetGroups.getD d [], g < t.groups.size

/-- Every position that a topology stores is that of a record. -/
structure InRange (t : Topology) : Prop extends t.LinksInRange where
  vertices : ∀ (id : VertexId) (pos : Nat),
    t.graph.positions[id]? = some pos → pos < t.graph.vertices.length
  operatorIndex : ∀ (id : VertexId) (pos : Nat),
    t.operatorIndex[id]? = some pos → pos < t.operators.length
  operatorTasks : ∀ o ∈ t.operators, ∀ i ∈ o.tasks, i < t.tasks.size
  regionTasks : ∀ region ∈ t.regions, ∀ i ∈ region.tasks, i < t.tasks.size
  blockingGroups : ∀ region ∈ t.regions, ∀ g ∈ region.blockingGroups,
    g < t.groups.size
  regionOf : ∀ r ∈ t.regionOf, r < t.regions.size

/-! ## Exact links are in range -/

section Whole

variable {t : Topology}

theorem Wired.linksInRange {done : List JobEdge} (h : t.Wired done) :
    t.LinksInRange where
  taskIndex id i hi := lt_of_taskIdAt ((h.indexed.tasks id i).mp hi)
  partitionIndex id p hp := by
    obtain ⟨x, hx, -⟩ :=
      Option.map_eq_some_iff.mp ((h.indexed.partitions id p).mp hp)
    exact lt_of_outputAt hx
  produced task htask p hp := by
    obtain ⟨i, hi, hproduced, -⟩ := exists_of_mem_tasks htask
    obtain ⟨e, -, hx⟩ :=
      h.producing.outputAt_of_mem hi (hproduced ▸ hp)
    exact lt_of_outputAt hx
  consumed task htask g hg := by
    obtain ⟨i, -, -, hconsumed⟩ := exists_of_mem_tasks htask
    exact h.grouped.lt_of_mem_consumedBy (hconsumed ▸ hg)
  producer part hpart := by
    obtain ⟨p, hp, -⟩ := exists_of_mem_partitions hpart
    exact lt_of_mem_producedBy (h.producing.producer p _ hp)
  consumerGroups part hpart c hc := by
    obtain ⟨p, -, hconsumers⟩ := exists_of_mem_partitions hpart
    rw [h.grouped.size]
    exact h.grouped.lt_of_mem_consumersOf (hconsumers ▸ hc)
  partitions group hgroup p hp := by
    obtain ⟨g, -, hpartitions, -⟩ := exists_of_mem_groups hgroup
    exact h.grouped.lt_of_mem_partitionsIn (hpartitions ▸ hp)
  consumerGroup group hgroup := by
    obtain ⟨g, hg, -, hc⟩ := exists_of_mem_groups hgroup
    rw [h.grouped.consumerGroup g hg, Option.some.injEq] at hc
    rwa [← hc, h.grouped.size]
  readers readers hreaders i hi := by
    obtain ⟨c, -, htasks, -⟩ := exists_of_mem_consumerGroups hreaders
    exact lt_of_mem_consumedBy
      ((h.grouped.mem_tasksReading c i).mp (htasks ▸ hi))
  partitionGroup readers hreaders := by
    obtain ⟨c, hc, -, hg⟩ := exists_of_mem_consumerGroups hreaders
    rw [h.grouped.size] at hc
    rw [h.grouped.partitionGroup c hc, Option.some.injEq] at hg
    rwa [← hg]
  dataSetGroups _ _ hg := h.carrying.lt_of_mem_dataSetGroups hg

theorem Regioned.lt_of_mem_tasks (h : t.Regioned) {region : PipelinedRegion}
    (hregion : region ∈ t.regions) : ∀ i ∈ region.tasks, i < t.tasks.size := by
  obtain ⟨r, hr⟩ := Array.mem_iff_getElem?.mp hregion
  intro i hi
  rw [← h.size]
  exact (Array.getElem?_eq_some_iff.mp ((h.mem_tasks r region hr i).mp hi)).1

theorem Regioned.lt_of_mem_blockingGroups (h : t.Regioned)
    {region : PipelinedRegion} (hregion : region ∈ t.regions) :
    ∀ g ∈ region.blockingGroups, g < t.groups.size := by
  obtain ⟨r, hr⟩ := Array.mem_iff_getElem?.mp hregion
  intro g hg
  obtain ⟨x, hx, -⟩ := Option.map_eq_some_iff.mp
    ((h.mem_blockingGroups r region hr g).mp hg).1
  exact lt_of_exchangeAt hx

theorem Regioned.lt_of_mem_regionOf (h : t.Regioned) {r : Nat}
    (hr : r ∈ t.regionOf) : r < t.regions.size := by
  obtain ⟨i, hi⟩ := Array.mem_iff_getElem?.mp hr
  exact h.lt i r hi

theorem Whole.lt_of_positions (h : t.Whole) {id : VertexId} {pos : Nat}
    (hpos : t.graph.positions[id]? = some pos) :
    pos < t.graph.vertices.length := by
  obtain ⟨v, hv, -⟩ :=
    Option.map_eq_some_iff.mp ((h.graph.positions id pos).mp hpos)
  exact (List.getElem?_eq_some_iff.mp hv).1

theorem Staffed.lt_of_operatorIndex (h : t.Staffed) {id : VertexId}
    {pos : Nat} (hpos : t.operatorIndex[id]? = some pos) :
    pos < t.operators.length := by
  obtain ⟨o, ho, -⟩ :=
    Option.map_eq_some_iff.mp ((h.operatorIndex id pos).mp hpos)
  exact (List.getElem?_eq_some_iff.mp ho).1

theorem Reachable.inRange (h : t.Reachable) : t.InRange where
  toLinksInRange := h.whole.wired.linksInRange
  vertices _ _ hpos := h.whole.lt_of_positions hpos
  operatorIndex _ _ hpos := h.whole.staffed.lt_of_operatorIndex hpos
  operatorTasks o ho i hi := by
    obtain ⟨id, hid, -⟩ := (h.whole.staffed.mem_tasks ho).mp hi
    exact lt_of_taskIdAt hid
  regionTasks _ hregion := h.regioned.lt_of_mem_tasks hregion
  blockingGroups _ hregion := h.regioned.lt_of_mem_blockingGroups hregion
  regionOf _ hr := h.regioned.lt_of_mem_regionOf hr

end Whole

/-! ## While an operator grows -/

/-- The topology after some subtasks have been appended beside a sibling. They
are in no region yet. -/
def appended (t : Topology) (x : Sibling) (outputs : List JobEdge)
    (k : Nat) : Topology :=
  ((List.range k).map (x.operator.parallelism + ·)).foldl
    (appendSubtask x.operator.id x.pos x.task.consumed outputs) t

/-- All positions are in range, and so are those that the next subtask is
appended by. -/
structure Appendable (t : Topology) (x : Sibling) : Prop where
  inRange : t.InRange
  pos : x.pos < t.operators.length
  consumed : ∀ g ∈ x.task.consumed, g < t.groups.size

/-- When subtasks are added beside a task, the sibling has a region, and each
of the subtasks can be appended. -/
def Growable (t : Topology) : Prop :=
  ∀ id x n, t.sibling id = .ok x →
    checkGrowth x.operator (t.graph.outputsOf id.vertex) n = .ok () →
    x.index < t.regionOf.size ∧
      ∀ k ≤ n, (t.appended x (t.graph.outputsOf id.vertex) k).Appendable x

section Growing

variable {t t' : Topology} {vertex : VertexId} {pos first n : Nat}
  {consumed : List GroupIndex}

theorem Grown.length_operators (h : t.Grown vertex pos first consumed n t') :
    t'.operators.length = t.operators.length := by
  rw [h.operators, List.length_modify]

/-- An operator has the tasks it had, or the new ones as well. -/
theorem Grown.lt_of_mem_operators (h : t.Grown vertex pos first consumed n t')
    (hold : ∀ o ∈ t.operators, ∀ i ∈ o.tasks, i < t.tasks.size) :
    ∀ o ∈ t'.operators, ∀ i ∈ o.tasks, i < t'.tasks.size := by
  intro o' ho' i hi
  rw [h.size]
  obtain ⟨q, hq⟩ := List.mem_iff_getElem?.mp ho'
  rw [h.operators, List.getElem?_modify] at hq
  obtain ⟨o, ho, rfl⟩ := Option.map_eq_some_iff.mp hq
  have hmem := hold o (List.mem_of_getElem? ho)
  -- Only the operator at the given place lists new positions.
  split at hi
  · rcases List.mem_append.mp hi with hi | hi
    · exact Nat.lt_add_right n (hmem i hi)
    · obtain ⟨k, hk, rfl⟩ := List.mem_map.mp hi
      exact Nat.add_lt_add_left (List.mem_range.mp hk) _
  · exact Nat.lt_add_right n (hmem i hi)

theorem Grown.lt_groups (h : t.Grown vertex pos first consumed n t') {g : Nat}
    (hg : g < t.groups.size) : g < t'.groups.size := by
  obtain ⟨x, hx⟩ := exists_exchangeAt hg
  exact lt_of_exchangeAt ((h.exchangeAt g).trans hx)

/-- Appending changes no region, so the positions there stay in range. -/
theorem Grown.inRange (h : t.Grown vertex pos first consumed n t')
    (ht : t.InRange) (hlinks : t'.LinksInRange) : t'.InRange where
  toLinksInRange := hlinks
  vertices := by
    rw [h.graph]
    exact ht.vertices
  operatorIndex := by
    rw [h.operatorIndex, h.length_operators]
    exact ht.operatorIndex
  operatorTasks := h.lt_of_mem_operators ht.operatorTasks
  regionTasks := by
    rw [h.regions, h.size]
    intro region hregion i hi
    exact Nat.lt_add_right n (ht.regionTasks region hregion i hi)
  blockingGroups := by
    rw [h.regions]
    intro region hregion g hg
    exact h.lt_groups (ht.blockingGroups region hregion g hg)
  regionOf := by
    rw [h.regions, h.regionOf]
    exact ht.regionOf

/-- In every topology that can be reached operators can grow. -/
theorem Reachable.growable (h : t.Reachable) : t.Growable := by
  intro id x n hx hcheck
  obtain ⟨hid, hconsumed, hpos, ho, hoid⟩ := h.whole.of_sibling hx
  have houts : ∀ e ∈ t.graph.outputsOf x.operator.id,
      e.pattern = .allToAll := fun e he =>
    pattern_of_checkGrowth hcheck e (List.mem_append_right _ (hoid ▸ he))
  refine ⟨h.regioned.size ▸ lt_of_taskIdAt hid, fun k _ => ?_⟩
  have hgrown : t.Grown x.operator.id x.pos x.operator.parallelism
      x.task.consumed k (t.appended x (t.graph.outputsOf id.vertex) k) :=
    grown_appendSubtasks ..
  -- The links are exact again after each subtask, not only after the last.
  have hwired : (t.appended x (t.graph.outputsOf id.vertex) k).Wired
      (t.operators.flatMap (·.inputs)) := by
    rw [appended, ← hoid, ← hconsumed]
    exact h.whole.wired_appendSubtasks ho houts hid hoid.symm x.pos k
  refine ⟨hgrown.inRange h.inRange hwired.linksInRange, ?_, fun g hg => ?_⟩
  · rw [hgrown.length_operators]
    exact h.whole.staffed.lt_of_operatorIndex hpos
  · exact hgrown.lt_groups
      (h.whole.wired.grouped.lt_of_mem_consumedBy (hconsumed ▸ hg))

end Growing

end Topology

end ControlPlane
