import Mathlib
import ControlPlane.Topology.Extend
import ControlPlane.Proofs.Topology.Build

/-!
# A further subtask

A subtask that joins a running topology reads the groups of its sibling, and
its partitions join the only group of their datasets. Entering a consumer
group and consuming its group go together, and so do producing a partition
and entering its group: after each of these two steps the links are exact
again.
-/

namespace ControlPlane

namespace Topology

/-! ## A task enters its consumer groups -/

/-- Adds a task that reads the given groups. -/
def enlist (t : Topology) (id : TaskId) (consumed : List GroupIndex) :
    Topology :=
  (t.pushTask { id, consumed }).joinConsumers t.tasks.size consumed

section Enlist

variable {t : Topology} {id : TaskId} {consumed : List Nat}

/-- A group and its consumer group have the same position. -/
theorem Grouped.map_consumerGroup (h : t.Grouped)
    (hlt : ∀ g ∈ consumed, g < t.groups.size) :
    (t.groupsOf consumed).map (·.consumerGroup) = consumed := by
  induction consumed with
  | nil => rfl
  | cons g consumed ih =>
    have hg := h.consumerGroup g (hlt g List.mem_cons_self)
    obtain ⟨group, hgroup, hc⟩ := Option.map_eq_some_iff.mp hg
    rw [groupsOf, List.filterMap_cons_some hgroup, List.map_cons, hc]
    exact congrArg _ (ih fun g' hg' => hlt g' (List.mem_cons_of_mem _ hg'))

theorem consumerGroups_enlist (h : t.Grouped)
    (hlt : ∀ g ∈ consumed, g < t.groups.size) :
    (t.enlist id consumed).consumerGroups =
      consumed.foldl (fun cs g => cs.modify g fun c =>
        { c with tasks := c.tasks ++ [t.tasks.size] }) t.consumerGroups := by
  conv_rhs => rw [← h.map_consumerGroup hlt, List.foldl_map]
  rfl

variable (h : t.Grouped) (hlt : ∀ g ∈ consumed, g < t.groups.size)
  (hnodup : consumed.Nodup)

include h hlt hnodup

theorem tasksReading_enlist (g : Nat) :
    (t.enlist id consumed).tasksReading g =
      if g ∈ consumed then t.tasksReading g ++ [t.tasks.size]
      else t.tasksReading g := by
  rw [tasksReading, consumerGroups_enlist h hlt,
    getElem?_foldl_modify hnodup]
  split
  · rename_i hg
    have hsize : g < t.consumerGroups.size := h.size ▸ hlt g hg
    simp [tasksReading, hsize]
  · rfl

theorem partitionGroupAt_enlist (g : Nat) :
    (t.enlist id consumed).partitionGroupAt g = t.partitionGroupAt g := by
  rw [partitionGroupAt, consumerGroups_enlist h hlt,
    getElem?_foldl_modify hnodup, partitionGroupAt]
  split <;> cases t.consumerGroups[g]? <;> rfl

theorem Grouped.enlist : (t.enlist id consumed).Grouped where
  size := by
    rw [consumerGroups_enlist h hlt, size_foldl_modify]
    exact h.size
  consumerGroup := h.consumerGroup
  partitionGroup := by
    intro g hg
    rw [partitionGroupAt_enlist h hlt hnodup]
    exact h.partitionGroup g hg
  mem_partitionsIn := h.mem_partitionsIn
  mem_tasksReading := by
    intro g i
    have hconsumed : (t.enlist id consumed).consumedBy i =
        if i = t.tasks.size then consumed else t.consumedBy i :=
      consumedBy_pushTask t { id, consumed } i
    rw [tasksReading_enlist h hlt hnodup, hconsumed]
    -- The new position reads nothing yet, so it is listed once afterwards.
    have hold : t.tasks.size ∉ t.tasksReading g := by
      rw [h.mem_tasksReading g]
      exact fun hg => Nat.lt_irrefl _ (Topology.lt_of_mem_consumedBy hg)
    by_cases hi : i = t.tasks.size
    · subst hi
      by_cases hg : g ∈ consumed <;> simp [hg, hold]
    · by_cases hg : g ∈ consumed <;> simp [hg, hi, h.mem_tasksReading g i]
  nodup_partitionsIn := h.nodup_partitionsIn
  nodup_tasksReading := by
    intro g
    rw [tasksReading_enlist h hlt hnodup]
    split
    · rw [List.nodup_append]
      refine ⟨h.nodup_tasksReading g, List.nodup_singleton _, ?_⟩
      intro i hi j hj hij
      rw [List.mem_singleton] at hj
      rw [hij, hj, h.mem_tasksReading g] at hi
      exact Nat.lt_irrefl _ (Topology.lt_of_mem_consumedBy hi)
    · exact h.nodup_tasksReading g

end Enlist

/-! ## A partition enters its group -/

/-- Adds a partition and registers it with the groups of its dataset. -/
def produce (t : Topology) (i : TaskIndex) (e : JobEdge) (k : Nat) :
    Topology :=
  (t.addPartition i e k).joinGroups t.partitions.size e.source

section Produce

variable {t : Topology} {i : Nat} {e : JobEdge} {k : Nat}

/-- What producing comes to when the dataset has a single group. -/
theorem produce_eq {g : Nat} (hgs : t.dataSetGroups.getD e.source [] = [g])
    (hgroup : t.consumerGroupAt g = some g) :
    t.produce i e k = { t.addPartition i e k with
      groups := t.groups.modify g fun group =>
        { group with partitions := group.partitions ++ [t.partitions.size] }
      partitions := (t.addPartition i e k).partitions.modify
        t.partitions.size fun p =>
          { p with consumerGroups := p.consumerGroups ++ [g] } } := by
  obtain ⟨group, hg, hc⟩ := Option.map_eq_some_iff.mp hgroup
  have hgs' : (t.addPartition i e k).dataSetGroups.getD e.source [] = [g] :=
    hgs
  have hg' : (t.addPartition i e k).groups[g]? = some group := hg
  rw [produce, joinGroups, hgs', List.foldl_cons, List.foldl_nil, hg']
  simp only [hc]
  rfl

variable {g : Nat} (hgs : t.dataSetGroups.getD e.source [] = [g])
  (hgroup : t.consumerGroupAt g = some g)

include hgs hgroup

theorem taskIdAt_produce (j : Nat) :
    (t.produce i e k).taskIdAt j = t.taskIdAt j := by
  rw [produce_eq hgs hgroup]
  exact taskIdAt_addPartition (e := e) (k := k) j

theorem consumedBy_produce (j : Nat) :
    (t.produce i e k).consumedBy j = t.consumedBy j := by
  rw [produce_eq hgs hgroup]
  exact consumedBy_addPartition (e := e) (k := k) j

theorem producedBy_produce (j : Nat) :
    (t.produce i e k).producedBy j = (t.addPartition i e k).producedBy j := by
  rw [produce_eq hgs hgroup]
  rfl

theorem outputAt_produce (p : Nat) :
    (t.produce i e k).outputAt p = (t.addPartition i e k).outputAt p := by
  rw [produce_eq hgs hgroup]
  simp only [outputAt, Array.getElem?_modify]
  split <;> cases (t.addPartition i e k).partitions[p]? <;> rfl

theorem consumersOf_produce (p : Nat) :
    (t.produce i e k).consumersOf p =
      if p = t.partitions.size then [g] else t.consumersOf p := by
  rw [produce_eq hgs hgroup]
  simp only [consumersOf, Array.getElem?_modify]
  by_cases hp : p = t.partitions.size
  · simp [hp, addPartition]
  · rw [if_neg (Ne.symm hp), if_neg hp]
    exact consumersOf_addPartition p

theorem partitionsIn_produce (g' : Nat) :
    (t.produce i e k).partitionsIn g' =
      if g' = g then t.partitionsIn g ++ [t.partitions.size]
      else t.partitionsIn g' := by
  obtain ⟨group, hg, -⟩ := Option.map_eq_some_iff.mp hgroup
  rw [produce_eq hgs hgroup]
  simp only [partitionsIn, Array.getElem?_modify]
  by_cases hgg : g' = g
  · simp [hgg, hg]
  · simp [hgg, Ne.symm hgg]

theorem exchangeAt_produce (g' : Nat) :
    (t.produce i e k).exchangeAt g' = t.exchangeAt g' := by
  rw [produce_eq hgs hgroup]
  simp only [exchangeAt, Array.getElem?_modify]
  split <;> cases t.groups[g']? <;> rfl

theorem consumerGroupAt_produce (g' : Nat) :
    (t.produce i e k).consumerGroupAt g' = t.consumerGroupAt g' := by
  rw [produce_eq hgs hgroup]
  simp only [consumerGroupAt, Array.getElem?_modify]
  split <;> cases t.groups[g']? <;> rfl

theorem size_groups_produce :
    (t.produce i e k).groups.size = t.groups.size := by
  rw [produce_eq hgs hgroup, Array.size_modify]

theorem consumerGroups_produce :
    (t.produce i e k).consumerGroups = t.consumerGroups := by
  rw [produce_eq hgs hgroup]
  rfl

theorem dataSetGroups_produce :
    (t.produce i e k).dataSetGroups = t.dataSetGroups := by
  rw [produce_eq hgs hgroup]
  rfl

theorem sameStaff_produce : SameStaff t (t.produce i e k) := by
  refine ⟨?_, ?_, ?_, taskIdAt_produce hgs hgroup⟩ <;>
    rw [produce_eq hgs hgroup] <;> rfl

theorem Indexed.produce (h : t.Indexed)
    (fresh : ∀ p x, t.outputAt p = some x → x.id ≠ ⟨e.source, k⟩) :
    (t.produce i e k).Indexed where
  tasks := by
    rw [funext (taskIdAt_produce hgs hgroup)]
    have hindex : (t.produce i e k).taskIndex = t.taskIndex := by
      rw [produce_eq hgs hgroup]
      rfl
    rw [hindex]
    exact h.tasks
  partitions := by
    rw [funext (outputAt_produce hgs hgroup)]
    have hindex : (t.produce i e k).partitionIndex =
        (t.addPartition i e k).partitionIndex := by
      rw [produce_eq hgs hgroup]
    rw [hindex]
    exact (h.addPartition fresh).partitions

theorem Producing.produce {outputs : TaskIndex → List JobEdge}
    (h : t.Producing outputs) {id : TaskId} (hi : t.taskIdAt i = some id)
    (hk : id.subtask = k) :
    (t.produce i e k).Producing
      (Function.update outputs i (outputs i ++ [e])) where
  produced := by
    have hadded := (h.addPartition (e := e) hi hk).produced
    rw [funext taskIdAt_addPartition] at hadded
    rw [funext (taskIdAt_produce hgs hgroup),
      funext (producedBy_produce hgs hgroup),
      funext (outputAt_produce hgs hgroup)]
    exact hadded
  producer := by
    rw [funext (producedBy_produce hgs hgroup),
      funext (outputAt_produce hgs hgroup)]
    exact (h.addPartition (e := e) hi hk).producer

theorem Grouped.produce (h : t.Grouped) : (t.produce i e k).Grouped where
  size := by
    rw [size_groups_produce hgs hgroup, consumerGroups_produce hgs hgroup]
    exact h.size
  consumerGroup := by
    intro g' hg'
    rw [size_groups_produce hgs hgroup] at hg'
    rw [consumerGroupAt_produce hgs hgroup]
    exact h.consumerGroup g' hg'
  partitionGroup := by
    intro g' hg'
    rw [size_groups_produce hgs hgroup] at hg'
    rw [partitionGroupAt, consumerGroups_produce hgs hgroup]
    exact h.partitionGroup g' hg'
  mem_partitionsIn := by
    intro g' p
    rw [partitionsIn_produce hgs hgroup, consumersOf_produce hgs hgroup]
    -- The new partition was in no group.
    have hold : t.partitions.size ∉ t.partitionsIn g' := fun hp =>
      Nat.lt_irrefl _ (h.lt_of_mem_partitionsIn hp)
    by_cases hp : p = t.partitions.size
    · subst hp
      by_cases hgg : g' = g
      · simp [hgg]
      · simp [hgg, hold]
    · by_cases hgg : g' = g
      · subst hgg
        simp [hp, h.mem_partitionsIn g' p]
      · simp [hgg, hp, h.mem_partitionsIn g' p]
  mem_tasksReading := by
    intro g' j
    rw [tasksReading, consumerGroups_produce hgs hgroup,
      consumedBy_produce hgs hgroup]
    exact h.mem_tasksReading g' j
  nodup_partitionsIn := by
    intro g'
    rw [partitionsIn_produce hgs hgroup]
    split
    · rw [List.nodup_append]
      refine ⟨h.nodup_partitionsIn g, List.nodup_singleton _, ?_⟩
      intro p hp q hq hpq
      rw [List.mem_singleton] at hq
      have hlt := h.lt_of_mem_partitionsIn hp
      exact Nat.ne_of_lt hlt (hpq.trans hq)
    · exact h.nodup_partitionsIn g'
  nodup_tasksReading := by
    intro g'
    rw [tasksReading, consumerGroups_produce hgs hgroup]
    exact h.nodup_tasksReading g'

/-- The new partition belongs to a dataset that one edge carries. -/
theorem Carrying.produce {done : List JobEdge} (h : t.Carrying done)
    (hgrouped : t.Grouped) (hone : done.countP (·.source = e.source) = 1) :
    (t.produce i e k).Carrying done where
  exchange := by
    rw [funext (exchangeAt_produce hgs hgroup)]
    exact h.exchange
  dataSet := by
    intro g' p hp
    rw [exchangeAt_produce hgs hgroup, outputAt_produce hgs hgroup,
      outputAt_addPartition]
    rw [partitionsIn_produce hgs hgroup] at hp
    have hexchange : (t.exchangeAt g).map (·.dataSet) = some e.source :=
      (h.dataSetGroups e.source g).mp (by
        rw [hgs]
        exact List.mem_singleton_self g)
    have hold : ∀ g', p ∈ t.partitionsIn g' → p ≠ t.partitions.size :=
      fun g' hp => Nat.ne_of_lt (hgrouped.lt_of_mem_partitionsIn hp)
    split at hp
    · rename_i hgg
      rcases List.mem_append.mp hp with hp | hp
      · rw [if_neg (hold g hp), hgg]
        exact h.dataSet g p hp
      · rw [if_pos (List.mem_singleton.mp hp), hgg, hexchange]
        rfl
    · rw [if_neg (hold g' hp)]
      exact h.dataSet g' p hp
  consumed := by
    intro j id hj
    rw [taskIdAt_produce hgs hgroup] at hj
    rw [consumedBy_produce hgs hgroup,
      funext (exchangeAt_produce hgs hgroup)]
    exact h.consumed j id hj
  connected := by
    intro p x hp
    rw [outputAt_produce hgs hgroup, outputAt_addPartition] at hp
    rw [consumersOf_produce hgs hgroup]
    split at hp
    · rename_i heq
      cases hp
      rw [if_pos heq]
      exact hone.symm
    · rename_i hne
      rw [if_neg hne]
      exact h.connected p x hp
  dataSetGroups := by
    rw [dataSetGroups_produce hgs hgroup,
      funext (exchangeAt_produce hgs hgroup)]
    exact h.dataSetGroups
  shuffled := by
    rw [dataSetGroups_produce hgs hgroup]
    exact h.shuffled

end Produce

/-! ## What a partition leaves alone -/

/-- What a new partition does not touch, neither when it is added nor when
it enters groups. -/
structure SameTasks (t t' : Topology) : Prop extends SameStaff t t' where
  size : t'.tasks.size = t.tasks.size
  consumedBy : ∀ i, t'.consumedBy i = t.consumedBy i
  attemptAt : ∀ i, t'.attemptAt i = t.attemptAt i
  exchangeAt : ∀ g, t'.exchangeAt g = t.exchangeAt g
  dataSetGroups : t'.dataSetGroups = t.dataSetGroups
  regions : t'.regions = t.regions
  regionOf : t'.regionOf = t.regionOf

theorem SameTasks.refl (t : Topology) : SameTasks t t :=
  ⟨.refl t, rfl, fun _ => rfl, fun _ => rfl, fun _ => rfl, rfl, rfl, rfl⟩

theorem SameTasks.trans {t t' t'' : Topology} (h : SameTasks t t')
    (h' : SameTasks t' t'') : SameTasks t t'' where
  toSameStaff := h.toSameStaff.trans h'.toSameStaff
  size := h'.size.trans h.size
  consumedBy i := (h'.consumedBy i).trans (h.consumedBy i)
  attemptAt i := (h'.attemptAt i).trans (h.attemptAt i)
  exchangeAt g := (h'.exchangeAt g).trans (h.exchangeAt g)
  dataSetGroups := h'.dataSetGroups.trans h.dataSetGroups
  regions := h'.regions.trans h.regions
  regionOf := h'.regionOf.trans h.regionOf

theorem sameTasks_addPartition (t : Topology) (i : Nat) (e : JobEdge)
    (k : Nat) : SameTasks t (t.addPartition i e k) where
  toSameStaff := sameStaff_addPartition t i e k
  size := size_tasks_addPartition
  consumedBy := consumedBy_addPartition
  attemptAt := attemptAt_addPartition
  exchangeAt _ := rfl
  dataSetGroups := rfl
  regions := rfl
  regionOf := rfl

theorem sameTasks_joinGroups (t : Topology) (p : Nat) (d : DataSetId) :
    SameTasks t (t.joinGroups p d) := by
  unfold joinGroups
  generalize t.dataSetGroups.getD d [] = gs
  induction gs generalizing t with
  | nil => exact .refl t
  | cons g gs ih =>
    rw [List.foldl_cons]
    cases hg : t.groups[g]? with
    | none => exact ih t
    | some group =>
      dsimp only
      refine SameTasks.trans ?_ (ih _)
      refine ⟨⟨rfl, rfl, rfl, fun _ => rfl⟩, rfl, fun _ => rfl, fun _ => rfl,
        ?_, rfl, rfl, rfl⟩
      intro g'
      simp only [Topology.exchangeAt, Array.getElem?_modify]
      split <;> cases t.groups[g']? <;> rfl

theorem sameTasks_foldl_produce (t : Topology) (i : Nat) (k : Nat)
    (outs : List JobEdge) :
    SameTasks t (outs.foldl (fun t e => t.produce i e k) t) := by
  induction outs generalizing t with
  | nil => exact .refl t
  | cons e outs ih =>
    exact ((sameTasks_addPartition t i e k).trans
      (sameTasks_joinGroups _ _ _)).trans (ih _)

/-! ## A subtask joins -/

/-- Assigns a task to the operator at a position. -/
def assign (t : Topology) (pos : Nat) (i : TaskIndex) : Topology :=
  { t with
    operators := t.operators.modify pos fun o =>
      { o with tasks := o.tasks ++ [i] } }

theorem appendSubtask_eq (vertex : VertexId) (pos : Nat)
    (consumed : List GroupIndex) (outs : List JobEdge) (t : Topology)
    (k : Nat) :
    appendSubtask vertex pos consumed outs t k =
      outs.foldl (fun t' e => t'.produce t.tasks.size e k)
        ((t.assign pos t.tasks.size).enlist ⟨vertex, k⟩ consumed) := rfl

/-- What appending subtasks to the operator at a position amounts to, apart
from the partitions. -/
structure Grown (t : Topology) (vertex : VertexId) (pos first : Nat)
    (consumed : List GroupIndex) (n : Nat) (t' : Topology) : Prop where
  graph : t'.graph = t.graph
  operators : t'.operators = t.operators.modify pos fun o =>
    { o with tasks := o.tasks ++ (List.range n).map (t.tasks.size + ·) }
  operatorIndex : t'.operatorIndex = t.operatorIndex
  size : t'.tasks.size = t.tasks.size + n
  taskIdAt : ∀ i : Nat, t'.taskIdAt i =
    if i < t.tasks.size then t.taskIdAt i
    else if i < t.tasks.size + n then
      some ⟨vertex, first + (i - t.tasks.size)⟩
    else none
  consumedBy : ∀ i : Nat, t'.consumedBy i =
    if i < t.tasks.size then t.consumedBy i
    else if i < t.tasks.size + n then consumed else []
  attemptAt : ∀ i : Nat, t'.attemptAt i =
    if i < t.tasks.size then t.attemptAt i else none
  exchangeAt : ∀ g, t'.exchangeAt g = t.exchangeAt g
  dataSetGroups : t'.dataSetGroups = t.dataSetGroups
  regions : t'.regions = t.regions
  regionOf : t'.regionOf = t.regionOf

section Append

variable {t : Topology} {vertex : VertexId} {pos first : Nat}
  {consumed : List GroupIndex} {outs : List JobEdge}

theorem Grown.zero (t : Topology) (vertex : VertexId) (pos first : Nat)
    (consumed : List GroupIndex) : t.Grown vertex pos first consumed 0 t where
  graph := rfl
  operators := by
    simp only [List.range_zero, List.map_nil, List.append_nil]
    exact (List.modify_id pos t.operators).symm
  operatorIndex := rfl
  size := rfl
  taskIdAt i := by
    by_cases hi : i < t.tasks.size <;> simp [hi, Topology.taskIdAt]
  consumedBy i := by
    by_cases hi : i < t.tasks.size <;> simp [hi, Topology.consumedBy]
  attemptAt i := by
    by_cases hi : i < t.tasks.size <;> simp [hi, Topology.attemptAt]
  exchangeAt _ := rfl
  dataSetGroups := rfl
  regions := rfl
  regionOf := rfl

/-- Whatever is kept by position has one new entry behind the others. -/
theorem ite_lt_succ {α : Type} {m n i : Nat} {old new rest : α} :
    (if i < m then old else if i < m + (n + 1) then new else rest) =
      if i = m + n then new
      else if i < m then old else if i < m + n then new else rest := by
  by_cases hi : i = m + n
  · subst hi
    simp
  · have hiff : i < m + (n + 1) ↔ i < m + n := by omega
    simp [hi, hiff]

theorem Grown.appendSubtask {t' : Topology} {n : Nat}
    (h : t.Grown vertex pos first consumed n t') (outs : List JobEdge) :
    t.Grown vertex pos first consumed (n + 1)
      (appendSubtask vertex pos consumed outs t' (first + n)) := by
  rw [appendSubtask_eq]
  -- The outputs only add partitions and what belongs to them.
  have hs := sameTasks_foldl_produce ((t'.assign pos t'.tasks.size).enlist
    ⟨vertex, first + n⟩ consumed) t'.tasks.size (first + n) outs
  exact
    { graph := hs.graph.trans h.graph
      operators := by
        rw [hs.operators]
        show t'.operators.modify pos _ = _
        rw [h.operators, List.modify_modify_eq, h.size]
        congr 1
        funext o
        simp [List.range_succ]
      operatorIndex := hs.operatorIndex.trans h.operatorIndex
      size := by
        rw [hs.size]
        show (t'.tasks.push _).size = _
        rw [Array.size_push, h.size]
        omega
      taskIdAt := by
        intro i
        rw [hs.taskIdAt]
        show ((t'.assign pos t'.tasks.size).pushTask _).taskIdAt i = _
        rw [taskIdAt_pushTask]
        show (if i = t'.tasks.size then _ else t'.taskIdAt i) = _
        rw [h.size, h.taskIdAt, ite_lt_succ]
        by_cases hi : i = t.tasks.size + n <;> simp [hi]
      consumedBy := by
        intro i
        rw [hs.consumedBy]
        show ((t'.assign pos t'.tasks.size).pushTask _).consumedBy i = _
        rw [consumedBy_pushTask]
        show (if i = t'.tasks.size then _ else t'.consumedBy i) = _
        rw [h.size, h.consumedBy, ite_lt_succ]
      attemptAt := by
        intro i
        rw [hs.attemptAt]
        show ((t'.assign pos t'.tasks.size).pushTask _).attemptAt i = _
        rw [attemptAt_pushTask]
        show (if i = t'.tasks.size then _ else t'.attemptAt i) = _
        rw [h.size, h.attemptAt]
        by_cases hi : i = t.tasks.size + n <;> simp [hi]
      exchangeAt := fun g => (hs.exchangeAt g).trans (h.exchangeAt g)
      dataSetGroups := hs.dataSetGroups.trans h.dataSetGroups
      regions := hs.regions.trans h.regions
      regionOf := hs.regionOf.trans h.regionOf }

theorem grown_appendSubtasks (t : Topology) (vertex : VertexId)
    (pos first : Nat) (consumed : List GroupIndex) (outs : List JobEdge)
    (n : Nat) :
    t.Grown vertex pos first consumed n (((List.range n).map
      (first + ·)).foldl (appendSubtask vertex pos consumed outs) t) := by
  induction n with
  | zero => exact .zero t vertex pos first consumed
  | succ n ih =>
    rw [List.range_succ, List.map_append, List.foldl_append, List.map_cons,
      List.map_nil, List.foldl_cons, List.foldl_nil]
    exact ih.appendSubtask outs

/-- The dataset of a fully wired edge is read through one group. -/
theorem Carrying.exists_group {done : List JobEdge} (h : t.Carrying done)
    (hgrouped : t.Grouped) {e : JobEdge} (he : e ∈ done)
    (hpattern : e.pattern = .allToAll) :
    ∃ g : Nat, t.dataSetGroups.getD e.source [] = [g] ∧
      t.consumerGroupAt g = some g := by
  obtain ⟨g, hgs⟩ := List.length_eq_one_iff.mp (h.shuffled e he hpattern)
  have hmem : g ∈ t.dataSetGroups.getD e.source [] := by simp [hgs]
  exact ⟨g, hgs, hgrouped.consumerGroup g (h.lt_of_mem_dataSetGroups hmem)⟩

/-- An appended subtask keeps the links exact, when it reads what the edges
to its vertex bring and all edges from its vertex are fully wired. -/
theorem Wired.appendSubtask {done : List JobEdge} (h : t.Wired done)
    (hg : t.graph.WellFormed) (hsources : (done.map (·.source)).Nodup)
    (houts : ∀ e ∈ t.graph.outputsOf vertex,
      e ∈ done ∧ e.pattern = .allToAll)
    (hconsumed : consumed.map t.exchangeAt =
      (done.filter (·.target = vertex)).map fun e => some e.exchange)
    {k : Nat} (fresh : ∀ i, t.taskIdAt i ≠ some ⟨vertex, k⟩) :
    (Topology.appendSubtask vertex pos consumed
      (t.graph.outputsOf vertex) t k).Wired done := by
  set t0 := t.assign pos t.tasks.size with ht0
  have hid : (t0.enlist ⟨vertex, k⟩ consumed).taskIdAt t.tasks.size =
      some ⟨vertex, k⟩ := by
    show (t0.pushTask _).taskIdAt t0.tasks.size = _
    rw [taskIdAt_pushTask, if_pos rfl]
  have hwired : t0.Wired done :=
    h.congr ⟨rfl, rfl, rfl, rfl, rfl, rfl, rfl, rfl, rfl, rfl⟩
      fun _ _ _ => rfl
  have hlt : ∀ g ∈ consumed, g < t0.groups.size := lt_of_exchanges hconsumed
  have hnodup : consumed.Nodup :=
    nodup_of_exchanges
      (hsources.sublist (List.filter_sublist.map JobEdge.source)) hconsumed
  set task : Task := { id := ⟨vertex, k⟩, consumed }
  have hpushed : (t0.pushTask task).Carrying done :=
    hwired.carrying.pushTask hconsumed
  have hindexed : (t0.pushTask task).Indexed := hwired.indexed.pushTask fresh
  have hproducing := hwired.producing.pushTask_outputs (rfl : task.produced = [])
  rw [appendSubtask_eq]
  refine wired_foldl_outputs (t := t0.enlist ⟨vertex, k⟩ consumed)
    (f := fun s e => s.produce t.tasks.size e k) hg hid
    ⟨hindexed.tasks, hindexed.partitions⟩
    ⟨hproducing.produced, hproducing.producer⟩
    (hwired.grouped.enlist hlt hnodup)
    ⟨hpushed.exchange, hpushed.dataSet, hpushed.consumed, hpushed.connected,
      hpushed.dataSetGroups, hpushed.shuffled⟩ ?_
  intro s e hs hindexed hgrouped hcarrying he hfresh
  obtain ⟨hdone, hpattern⟩ := houts e he
  obtain ⟨g, hgs, hgroup⟩ := hcarrying.exists_group hgrouped hdone hpattern
  have hone := countP_key_eq_one (f := JobEdge.source) hsources hdone
  refine ⟨sameStaff_produce hgs hgroup, hindexed.produce hgs hgroup hfresh,
    hgrouped.produce hgs hgroup, hcarrying.produce hgs hgroup hgrouped hone,
    ?_⟩
  intro outs houts
  exact houts.produce hgs hgroup ((hs.taskIdAt _).trans hid) rfl

end Append

end Topology

end ControlPlane
