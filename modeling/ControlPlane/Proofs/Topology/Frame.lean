import Mathlib
import ControlPlane.Proofs.Topology.Feeders
import ControlPlane.Proofs.Topology.InRange

/-!
# What growing leaves alone

New subtasks and their partitions are put behind those there are. No record
in front of them is written to: the only task that produces a new partition
is a new one, and the only partition that enters a group is a new one. What
changes elsewhere is where new subtasks and new partitions are entered.
-/

namespace ControlPlane

namespace Topology

/-! ## Records that are kept -/

/-- All tasks and partitions of the first topology are in the second one as
they were, and the tasks behind them have never been started. -/
structure Continues (t s : Topology) : Prop where
  size_tasks : t.tasks.size ≤ s.tasks.size
  size_partitions : t.partitions.size ≤ s.partitions.size
  tasks : ∀ i < t.tasks.size, s.tasks[i]? = t.tasks[i]?
  partitions : ∀ p < t.partitions.size, s.partitions[p]? = t.partitions[p]?
  unstarted : ∀ (i : Nat) task, t.tasks.size ≤ i → s.tasks[i]? = some task →
    task.attempt = none ∧ task.attemptsStarted = 0

section Continues

variable {t s : Topology}

theorem Continues.refl (t : Topology) : Continues t t where
  size_tasks := Nat.le_refl _
  size_partitions := Nat.le_refl _
  tasks _ _ := rfl
  partitions _ _ := rfl
  unstarted i task hi htask := by
    rw [Array.getElem?_eq_none hi] at htask
    cases htask

theorem Continues.outputAt (h : Continues t s) {p : Nat}
    (hp : p < t.partitions.size) : s.outputAt p = t.outputAt p := by
  rw [Topology.outputAt, h.partitions p hp, Topology.outputAt]

theorem Continues.assign (h : Continues t s) (pos i : Nat) :
    Continues t (s.assign pos i) :=
  ⟨h.size_tasks, h.size_partitions, h.tasks, h.partitions, h.unstarted⟩

theorem Continues.enlist (h : Continues t s) (id : TaskId)
    (consumed : List GroupIndex) : Continues t (s.enlist id consumed) where
  size_tasks := by
    show _ ≤ (s.tasks.push _).size
    rw [Array.size_push]
    exact Nat.le_succ_of_le h.size_tasks
  size_partitions := h.size_partitions
  tasks i hi := by
    have hlt := Nat.lt_of_lt_of_le hi h.size_tasks
    show (s.tasks.push _)[i]? = _
    rw [Array.getElem?_push, if_neg (Nat.ne_of_lt hlt)]
    exact h.tasks i hi
  partitions := h.partitions
  unstarted i task hi htask := by
    change (s.tasks.push _)[i]? = _ at htask
    rw [Array.getElem?_push] at htask
    split at htask
    · cases htask
      exact ⟨rfl, rfl⟩
    · exact h.unstarted i task hi htask

/-- A new task produces a partition. -/
theorem Continues.addPartition (h : Continues t s) {i : Nat}
    (hi : t.tasks.size ≤ i) (e : JobEdge) (k : Nat) :
    Continues t (s.addPartition i e k) where
  size_tasks := by
    rw [size_tasks_addPartition]
    exact h.size_tasks
  size_partitions := by
    rw [size_partitions_addPartition]
    exact Nat.le_succ_of_le h.size_partitions
  tasks j hj := by
    have hne : i ≠ j := by omega
    simp only [Topology.addPartition, Array.getElem?_modify, if_neg hne]
    exact h.tasks j hj
  partitions p hp := by
    have hne : p ≠ s.partitions.size := by
      have := h.size_partitions
      omega
    simp only [Topology.addPartition, Array.getElem?_push, if_neg hne]
    exact h.partitions p hp
  unstarted j task hj htask := by
    simp only [Topology.addPartition, Array.getElem?_modify] at htask
    split at htask
    · obtain ⟨old, hold, rfl⟩ := Option.map_eq_some_iff.mp htask
      exact h.unstarted j old hj hold
    · exact h.unstarted j task hj htask

/-- A new partition enters the groups of its dataset. -/
theorem Continues.joinGroups (h : Continues t s) {p : Nat}
    (hp : t.partitions.size ≤ p) (d : DataSetId) :
    Continues t (s.joinGroups p d) := by
  unfold Topology.joinGroups
  generalize s.dataSetGroups.getD d [] = gs
  induction gs generalizing s with
  | nil => exact h
  | cons g gs ih =>
    rw [List.foldl_cons]
    cases hg : s.groups[g]? with
    | none => exact ih h
    | some group =>
      refine ih ⟨h.size_tasks, ?_, h.tasks, ?_, h.unstarted⟩
      · simpa using h.size_partitions
      · intro q hq
        have hne : p ≠ q := by omega
        simp only [Array.getElem?_modify, if_neg hne]
        exact h.partitions q hq

theorem size_partitions_joinGroups (s : Topology) (p : Nat) (d : DataSetId) :
    (s.joinGroups p d).partitions.size = s.partitions.size := by
  unfold Topology.joinGroups
  generalize s.dataSetGroups.getD d [] = gs
  induction gs generalizing s with
  | nil => rfl
  | cons g gs ih =>
    rw [List.foldl_cons, ih]
    split
    · rfl
    · simp

/-- A subtask joins, with one partition for each output. -/
theorem Continues.appendSubtask (h : Continues t s) (vertex : VertexId)
    (pos : Nat) (consumed : List GroupIndex) (outs : List JobEdge) (k : Nat) :
    Continues t (appendSubtask vertex pos consumed outs s k) := by
  rw [appendSubtask_eq]
  have hi := h.size_tasks
  have hstart : Continues t
      ((s.assign pos s.tasks.size).enlist ⟨vertex, k⟩ consumed) :=
    (h.assign pos s.tasks.size).enlist ⟨vertex, k⟩ consumed
  generalize (s.assign pos s.tasks.size).enlist ⟨vertex, k⟩ consumed = s'
    at hstart
  induction outs generalizing s' with
  | nil => exact hstart
  | cons e outs ih =>
    rw [List.foldl_cons]
    exact ih _ ((hstart.addPartition hi e k).joinGroups
      hstart.size_partitions e.source)

theorem size_partitions_appendSubtask (s : Topology) (vertex : VertexId)
    (pos : Nat) (consumed : List GroupIndex) (outs : List JobEdge) (k : Nat) :
    (appendSubtask vertex pos consumed outs s k).partitions.size =
      s.partitions.size + outs.length := by
  rw [appendSubtask_eq]
  have hstart : ((s.assign pos s.tasks.size).enlist ⟨vertex, k⟩
      consumed).partitions.size = s.partitions.size := rfl
  rw [← hstart]
  generalize (s.assign pos s.tasks.size).enlist ⟨vertex, k⟩ consumed = s'
  induction outs generalizing s' with
  | nil => rfl
  | cons e outs ih =>
    rw [List.foldl_cons, ih, produce, size_partitions_joinGroups,
      size_partitions_addPartition, List.length_cons]
    omega

theorem continues_appended (t : Topology) (x : Sibling) (outs : List JobEdge)
    (n : Nat) : Continues t (t.appended x outs n) ∧
      (t.appended x outs n).partitions.size =
        t.partitions.size + n * outs.length := by
  induction n with
  | zero => exact ⟨.refl t, by simp [appended]⟩
  | succ n ih =>
    obtain ⟨hcontinues, hsize⟩ := ih
    rw [appended, List.range_succ, List.map_append, List.foldl_append,
      List.map_cons, List.map_nil, List.foldl_cons, List.foldl_nil]
    refine ⟨hcontinues.appendSubtask _ _ _ _ _, ?_⟩
    rw [size_partitions_appendSubtask]
    unfold appended at hsize
    rw [hsize, Nat.succ_mul]
    omega

end Continues

/-! ## The whole change -/

/-- The positions of tasks that are put behind the others. -/
def behind (t : Topology) (n : Nat) : List TaskIndex :=
  (List.range n).map (t.tasks.size + ·)

/-- All that growing an operator beside one of its tasks does. -/
structure Enlarged (t : Topology) (o : Operator) (sibling n : Nat)
    (t' : Topology) : Prop extends Continues t t' where
  tasks_eq : t'.tasks.size = t.tasks.size + n
  partitions_eq : t'.partitions.size =
    t.partitions.size + n * (t.graph.outputsOf o.id).length
  /-- The new tasks read what the sibling reads and have no attempt. -/
  added : ∀ k < n, ∃ produced,
    (∀ p ∈ produced, t.partitions.size ≤ p) ∧
    t'.tasks[t.tasks.size + k]? = some
      { id := ⟨o.id, o.parallelism + k⟩
        produced
        consumed := t.consumedBy sibling
        attempt := none
        attemptsStarted := 0 }
  /-- The new partitions are those of the new tasks. -/
  outputs : ∀ p x, t.partitions.size ≤ p → t'.outputAt p = some x →
    ∃ e ∈ t.graph.outputsOf o.id, ∃ k < n,
      x = e.output (o.parallelism + k) (t.tasks.size + k)
  taskIndex : ∀ id : TaskId, t'.taskIndex[id]? =
    if id.vertex = o.id ∧ o.parallelism ≤ id.subtask ∧
      id.subtask < o.parallelism + n
    then some (t.tasks.size + (id.subtask - o.parallelism))
    else t.taskIndex[id]?
  partitionIndex : ∀ id : PartitionId,
    (∀ e ∈ t.graph.outputsOf o.id, ∀ k < n,
      id ≠ ⟨e.source, o.parallelism + k⟩) →
    t'.partitionIndex[id]? = t.partitionIndex[id]?
  /-- The groups that the sibling reads are those of the inputs. -/
  inputs : (t.consumedBy sibling).map t.exchangeAt =
    o.inputs.map fun e => some e.exchange
  groups_eq : t'.groups.size = t.groups.size
  /-- The new partitions enter the groups of the outputs. -/
  groups : ∀ (g : Nat) x, t.groups[g]? = some x → ∃ added,
    t'.groups[g]? = some { x with partitions := x.partitions ++ added } ∧
    added.map t'.outputAt = (List.range n).flatMap fun k =>
      ((t.graph.outputsOf o.id).filter (·.source = x.dataSet)).map fun e =>
        some (e.output (o.parallelism + k) (t.tasks.size + k))
  /-- The new tasks enter the consumer groups of the inputs. -/
  consumerGroups : ∀ c : Nat, t'.consumerGroups[c]? =
    t.consumerGroups[c]?.map fun x =>
      if x.partitionGroup ∈ t.consumedBy sibling then
        { x with tasks := x.tasks ++ t.behind n }
      else x
  dataSetGroups : t'.dataSetGroups = t.dataSetGroups
  /-- The new tasks enter the region of the sibling. -/
  regions : ∀ r : Nat, t'.regions[r]? = t.regions[r]?.map fun x =>
    if t.regionOf[sibling]? = some r then
      { x with tasks := x.tasks ++ t.behind n }
    else x
  regionOf : t'.regionOf.toList = t.regionOf.toList ++
    List.replicate n (t.regionOf[sibling]?.getD 0)
  operators : t'.operators = t.operators.map fun x =>
    if x.id = o.id then
      { x with
        tasks := x.tasks ++ t.behind n
        parallelism := o.parallelism + n }
    else x
  operatorIndex : t'.operatorIndex = t.operatorIndex
  name : t'.graph.name = t.graph.name
  positions : t'.graph.positions = t.graph.positions
  vertices : t'.graph.vertices = t.graph.vertices.map fun v =>
    if v.id = o.id then { v with parallelism := o.parallelism + n } else v

section Extended

variable {t t' : Topology} {o : Operator} {i n : Nat}
  (hext : Extended t o i n t') (h : t.Whole)

include hext

theorem Extended.taskIndex_eq (h : t.Whole) (id : TaskId) : t'.taskIndex[id]? =
      if id.vertex = o.id ∧ o.parallelism ≤ id.subtask ∧
        id.subtask < o.parallelism + n
      then some (t.tasks.size + (id.subtask - o.parallelism))
      else t.taskIndex[id]? := by
  have hindexed := h.wired.indexed.tasks
  have hindexed' := hext.whole.wired.indexed.tasks
  have happends : t.Appends o.id o.parallelism n t' := hext.taskIdAt
  split
  · rename_i hnew
    obtain ⟨hv, hle, hlt⟩ := hnew
    rw [hindexed', happends.taskIdAt_new (by omega)]
    obtain ⟨vertex, subtask⟩ := id
    dsimp only at hv hle hlt ⊢
    subst hv
    congr 2
    omega
  · rename_i hold
    -- Both indexes invert the table of tasks, and no new task has this id.
    apply Option.ext
    intro j
    rw [hindexed, hindexed']
    constructor
    · intro hj
      rcases happends.taskIdAt_cases hj with hj | ⟨k, hk, -, rfl⟩
      · exact hj
      · exact absurd ⟨rfl, by simp, by simpa using hk⟩ hold
    · intro hj
      exact happends.taskIdAt_old hj

/-- A partition behind the others is one of a new task. -/
theorem Extended.exists_output_of_le (hc : Continues t t') {p : Nat}
    {x : Output} (h : t.Whole) (hp : t.partitions.size ≤ p)
    (hx : t'.outputAt p = some x) :
    ∃ e ∈ t.graph.outputsOf o.id, ∃ k < n,
      x = e.output (o.parallelism + k) (t.tasks.size + k) := by
  have happends : t.Appends o.id o.parallelism n t' := hext.taskIdAt
  have hproducing := hext.whole.wired.producing
  obtain ⟨id, hid, e, he, hxe⟩ := hproducing.exists_output hx
  rcases happends.taskIdAt_cases hid with hold | ⟨k, hk, hi, rfl⟩
  · -- What an old task produces has an old position.
    have hmem := hproducing.producer p x hx
    have hsame : t'.producedBy x.producer = t.producedBy x.producer := by
      rw [producedBy, hc.tasks _ (lt_of_taskIdAt hold), producedBy]
    rw [hsame] at hmem
    obtain ⟨e', -, hp'⟩ := h.wired.producing.outputAt_of_mem hold hmem
    exact absurd (lt_of_outputAt hp') (Nat.not_lt.mpr hp)
  · rw [outputs_of_taskIdAt hid] at he
    have hedges : t'.graph.edges = t.graph.edges := by
      rw [JobGraph.edges, hext.vertices, JobGraph.edges, List.flatMap_map]
      congr 1
      funext w
      split <;> rfl
    rw [JobGraph.outputsOf, hedges] at he
    exact ⟨e, he, k, hk, hi ▸ hxe⟩

theorem Extended.partitionIndex_eq (hc : Continues t t') (h : t.Whole)
    {id : PartitionId} (hid : ∀ e ∈ t.graph.outputsOf o.id, ∀ k < n,
      id ≠ ⟨e.source, o.parallelism + k⟩) :
    t'.partitionIndex[id]? = t.partitionIndex[id]? := by
  apply Option.ext
  intro p
  rw [h.wired.indexed.partitions, hext.whole.wired.indexed.partitions]
  dsimp only
  rcases Nat.lt_or_ge p t.partitions.size with hlt | hge
  · rw [hc.outputAt hlt]
  · have hnone : t.outputAt p = none := by
      rw [outputAt, Array.getElem?_eq_none hge]
      rfl
    rw [hnone]
    constructor
    · intro hx
      obtain ⟨x, hx, hxid⟩ := Option.map_eq_some_iff.mp hx
      obtain ⟨e, he, k, hk, rfl⟩ := hext.exists_output_of_le hc h hge hx
      exact absurd hxid.symm (hid e he k hk)
    · intro hx
      cases hx

theorem Extended.size_groups : t'.groups.size = t.groups.size := by
  apply Nat.le_antisymm
  · by_contra hlt
    obtain ⟨x, hx⟩ := exists_exchangeAt (Nat.lt_of_not_le hlt)
    rw [hext.exchangeAt] at hx
    exact Nat.lt_irrefl _ (lt_of_exchangeAt hx)
  · by_contra hlt
    obtain ⟨x, hx⟩ := exists_exchangeAt (Nat.lt_of_not_le hlt)
    rw [← hext.exchangeAt] at hx
    exact Nat.lt_irrefl _ (lt_of_exchangeAt hx)

/-- A group gets the new partitions of its dataset, and nothing else. -/
theorem Extended.exists_groups_eq (h : t.Whole) {g : Nat}
    {x : PartitionGroup} (hg : t.groups[g]? = some x) : ∃ added,
      t'.groups[g]? = some { x with partitions := x.partitions ++ added } ∧
      added.map t'.outputAt = (List.range n).flatMap fun k =>
        ((t.graph.outputsOf o.id).filter (·.source = x.dataSet)).map fun e =>
          some (e.output (o.parallelism + k) (t.tasks.size + k)) := by
  have hlt := (Array.getElem?_eq_some_iff.mp hg).1
  obtain ⟨y, hy⟩ : ∃ y, t'.groups[g]? = some y :=
    ⟨_, Array.getElem?_eq_getElem (hext.size_groups ▸ hlt)⟩
  obtain ⟨added, hadded, houtputs⟩ := hext.joined.partitionsIn g
  have hexchange := hext.exchangeAt g
  have hc := h.wired.grouped.consumerGroup_eq hg
  have hc' := hext.whole.wired.grouped.consumerGroup_eq hy
  simp only [partitionsIn, hg, hy, Option.map_some, Option.getD_some]
    at hadded
  simp only [Topology.exchangeAt, hg, hy, Option.map_some, Option.some.injEq,
    Exchange.mk.injEq] at hexchange
  refine ⟨added, ?_, houtputs.trans ?_⟩
  · cases x
    cases y
    simp_all
  · simp only [outputsInto, Topology.exchangeAt, hg, Option.map_some,
      Option.some.injEq, List.map_map]
    rfl

/-- A consumer group gets the new tasks if the sibling reads its group. -/
theorem Extended.consumerGroups_eq (h : t.Whole) (c : Nat) :
    t'.consumerGroups[c]? = t.consumerGroups[c]?.map fun x =>
      if x.partitionGroup ∈ t.consumedBy i then
        { x with tasks := x.tasks ++ t.behind n }
      else x := by
  have hgrouped := h.wired.grouped
  have hgrouped' := hext.whole.wired.grouped
  have hsize : t'.consumerGroups.size = t.consumerGroups.size := by
    rw [hgrouped'.size, hext.size_groups, hgrouped.size]
  cases hx : t.consumerGroups[c]? with
  | none =>
    rw [Array.getElem?_eq_none_iff, ← hsize] at hx
    rw [Array.getElem?_eq_none hx]
    rfl
  | some x =>
    have hlt := (Array.getElem?_eq_some_iff.mp hx).1
    obtain ⟨y, hy⟩ : ∃ y, t'.consumerGroups[c]? = some y :=
      ⟨_, Array.getElem?_eq_getElem (hsize ▸ hlt)⟩
    have hg := (hgrouped.partitionGroup_eq hx).2
    have hg' := (hgrouped'.partitionGroup_eq hy).2
    have htasks := hext.joined.tasksReading c
    simp only [tasksReading, hx, hy, Option.map_some, Option.getD_some]
      at htasks
    rw [hy, Option.map_some, hg, behind]
    cases x
    cases y
    dsimp only at htasks hg hg'
    split at htasks <;> simp_all

/-- New positions are behind those in the region, so they stay in order. -/
theorem Extended.regions_eq (hr : t.Regioned) {r : Nat}
    (hi : t.regionOf[i]? = some r) (q : Nat) :
    t'.regions[q]? = t.regions[q]?.map fun x =>
      if t.regionOf[i]? = some q then
        { x with tasks := x.tasks ++ t.behind n }
      else x := by
  rw [hext.getElem?_regions hi, hi]
  by_cases hrq : r = q
  · subst hrq
    rw [if_pos rfl]
    cases hx : t.regions[r]? with
    | none => rfl
    | some x =>
      rw [Option.map_some, Option.map_some, if_pos rfl]
      have hsorted : (x.tasks ++ t.behind n).Pairwise (· < ·) := by
        rw [List.pairwise_append]
        refine ⟨hr.tasks_ascending r x hx, ?_, ?_⟩
        · rw [behind, List.pairwise_map]
          exact List.pairwise_lt_range.imp fun hlt =>
            Nat.add_lt_add_left hlt _
        · intro j hj k hk
          obtain ⟨l, -, rfl⟩ := List.mem_map.mp hk
          exact Nat.lt_add_right l
            (hr.lt_of_mem_tasks (Array.mem_of_getElem? hx) j hj)
      have hsame : ascending (x.tasks ++ t.behind n) = x.tasks ++ t.behind n :=
        (pairwise_lt_ascending _).eq_of_mem_iff hsorted fun j => mem_ascending
      rw [← hsame]
      rfl
  · rw [if_neg hrq]
    have hne : some r ≠ some q := fun heq => hrq (Option.some.inj heq)
    simp [hrq]

/-- A new task produces new partitions only. -/
theorem Extended.le_of_mem_producedBy (hc : Continues t t') (h : t.Whole)
    {k p : Nat} (hk : k < n) (hp : p ∈ t'.producedBy (t.tasks.size + k)) :
    t.partitions.size ≤ p := by
  have happends : t.Appends o.id o.parallelism n t' := hext.taskIdAt
  by_contra hlt
  obtain ⟨e, -, hx⟩ := hext.whole.wired.producing.outputAt_of_mem
    (happends.taskIdAt_new hk) hp
  rw [hc.outputAt (Nat.lt_of_not_le hlt)] at hx
  -- An old partition has an old producer.
  have hproducer := lt_of_mem_producedBy (h.wired.producing.producer p _ hx)
  exact Nat.not_lt.mpr (Nat.le_add_right t.tasks.size k) hproducer

/-- A new task reads what the sibling reads, and has never been started. -/
theorem Extended.exists_added (hc : Continues t t') (h : t.Whole) {k : Nat}
    (hk : k < n) : ∃ produced, (∀ p ∈ produced, t.partitions.size ≤ p) ∧
      t'.tasks[t.tasks.size + k]? = some
        { id := ⟨o.id, o.parallelism + k⟩
          produced
          consumed := t.consumedBy i
          attempt := none
          attemptsStarted := 0 } := by
  have happends : t.Appends o.id o.parallelism n t' := hext.taskIdAt
  obtain ⟨task, hget, hid⟩ :=
    Option.map_eq_some_iff.mp (happends.taskIdAt_new hk)
  obtain ⟨hattempt, hstarted⟩ := hc.unstarted _ _ (Nat.le_add_right _ _) hget
  have hconsumed := hext.consumedBy (t.tasks.size + k)
  rw [if_neg (by omega), if_pos (by omega)] at hconsumed
  rw [Topology.consumedBy, hget, Option.map_some, Option.getD_some]
    at hconsumed
  refine ⟨task.produced, fun p hp => ?_, ?_⟩
  · apply hext.le_of_mem_producedBy hc h hk
    rwa [producedBy, hget]
  · rw [hget, ← hid, ← hconsumed, ← hattempt, ← hstarted]

/-- Everything that an operator changes by growing. -/
theorem Extended.enlarged (h : t.Whole) (hr : t.Regioned)
    (ho : o ∈ t.operators) (hi : i ∈ o.tasks) (hc : Continues t t')
    (hsize : t'.partitions.size =
      t.partitions.size + n * (t.graph.outputsOf o.id).length)
    (hindex : t'.operatorIndex = t.operatorIndex)
    (hname : t'.graph.name = t.graph.name) : Enlarged t o i n t' where
  toContinues := hc
  tasks_eq := hext.size
  partitions_eq := hsize
  added k hk := hext.exists_added hc h hk
  outputs p x hp hx := hext.exists_output_of_le hc h hp hx
  taskIndex := hext.taskIndex_eq h
  partitionIndex id hid := hext.partitionIndex_eq hc h hid
  inputs := h.exchanges_of_mem ho hi
  groups_eq := hext.size_groups
  groups g x hg := hext.exists_groups_eq h hg
  consumerGroups := hext.consumerGroups_eq h
  dataSetGroups := hext.dataSetGroups
  regions := by
    obtain ⟨id, hid, -⟩ := (h.staffed.mem_tasks ho).mp hi
    obtain ⟨r, hri⟩ := hr.exists_regionOf (lt_of_taskIdAt hid)
    exact hext.regions_eq hr hri
  regionOf := by
    rw [hext.regionOf, toList_foldl_push, List.length_map, List.length_range]
  operators := by
    rw [hext.operators]
    apply List.map_congr_left
    intro x hx
    by_cases hxo : x.id = o.id
    · rw [if_pos hxo, if_pos hxo, h.staffed.operator_inj hx ho hxo]
      rfl
    · rw [if_neg hxo, if_neg hxo]
  operatorIndex := hindex
  name := hname
  positions := hext.positions
  vertices := hext.vertices

end Extended

end Topology

end ControlPlane
