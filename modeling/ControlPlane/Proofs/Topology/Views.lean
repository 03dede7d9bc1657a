import Mathlib
import ControlPlane.Proofs.Topology.Feeders
import ControlPlane.Proofs.Topology.Numbered
import ControlPlane.Proofs.Topology.Reachable

/-!
# Wiring without positions

Tasks, partitions and groups refer to each other by position. With ids in
the place of positions, what a task produces and consumes is a function of
the job graph. So topologies of one job graph have the same wiring, however
they came about.
-/

namespace ControlPlane

/-- A group, with ids in the place of positions. -/
structure GroupView where
  exchange : Exchange
  partitions : List (Option PartitionId)
  readers : List (Option TaskId)
deriving DecidableEq, Repr

/-- What a task produces and consumes, in order. -/
structure TaskView where
  produced : List (Option PartitionId)
  consumed : List (Option GroupView)
deriving DecidableEq, Repr

/-- A partition with its producer and the groups it is read in. -/
structure PartitionView where
  kind : ResultKind
  producer : Option TaskId
  groups : List (Option GroupView)
deriving DecidableEq, Repr

/-- The group of an edge that lies on a wire between numbers of subtasks. -/
def JobEdge.view (e : JobEdge) (w : Wire) : GroupView where
  exchange := e.exchange
  partitions := w.partitions.map fun k => some ⟨e.source, k⟩
  readers := w.consumers.map fun l => some ⟨e.target, l⟩

namespace JobGraph

/-- The wire of an edge to a subtask of its target. -/
def wireTo (g : JobGraph) (e : JobEdge) (l : Nat) : Option Wire :=
  (g.wiresOf e).find? (l ∈ ·.consumers)

/-- The wire of an edge from a subtask of its producer. -/
def wireFrom (g : JobGraph) (e : JobEdge) (k : Nat) : Option Wire :=
  (g.wiresOf e).find? (k ∈ ·.partitions)

/-- What a subtask has to produce and consume. -/
def taskView (g : JobGraph) (id : TaskId) : Except Error TaskView :=
  if id.subtask < g.parallelismOf id.vertex then
    .ok {
      produced := (g.outputsOf id.vertex).map fun e =>
        some ⟨e.source, id.subtask⟩
      consumed := (g.edges.filter (·.target = id.vertex)).map fun e =>
        (g.wireTo e id.subtask).map e.view }
  else .error (.unknownTask id)

/-- Who has to produce a partition, and the group it has to be in. -/
def partitionView (g : JobGraph) (id : PartitionId) :
    Except Error PartitionView :=
  match g.edges.find? fun e => e.source = id.dataSet ∧
      id.number < g.parallelismOf e.producer with
  | some e => .ok {
      kind := e.kind
      producer := some ⟨e.producer, id.number⟩
      groups := [(g.wireFrom e id.number).map e.view] }
  | none => .error (.unknownPartition id)

end JobGraph

namespace Topology

/-- The id of the partition at a position. -/
def partitionIdAt (t : Topology) (p : PartitionIndex) : Option PartitionId :=
  (t.outputAt p).map (·.id)

/-- The group at a position. -/
def groupView (t : Topology) (g : GroupIndex) : Option GroupView :=
  t.groups[g]?.map fun group =>
    { exchange := ⟨group.dataSet, group.kind, group.pattern⟩
      partitions := group.partitions.map t.partitionIdAt
      readers := (t.tasksReading group.consumerGroup).map t.taskIdAt }

/-- The task with an id. -/
def taskView (t : Topology) (id : TaskId) : Except Error TaskView :=
  (t.task id).map fun task =>
    { produced := task.produced.map t.partitionIdAt
      consumed := task.consumed.map t.groupView }

/-- The partition with an id. -/
def partitionView (t : Topology) (id : PartitionId) :
    Except Error PartitionView :=
  (t.partition id).map fun part =>
    { kind := part.kind
      producer := t.taskIdAt part.producer
      groups := part.consumerGroups.map fun c =>
        (t.partitionGroupAt c).bind t.groupView }

/-- Two topologies are the same up to positions: they have the same tasks and
partitions, wired in the same way, and the same groups, registered with their
datasets in the same order. -/
structure SameWiring (t u : Topology) : Prop where
  task : ∀ id, u.taskView id = t.taskView id
  partition : ∀ id, u.partitionView id = t.partitionView id
  groups : ((List.range u.groups.size).map u.groupView).Perm
    ((List.range t.groups.size).map t.groupView)
  dataSet : ∀ d, (u.dataSetGroups.getD d []).map u.groupView =
    (t.dataSetGroups.getD d []).map t.groupView

section Lookup

variable {t : Topology} (h : t.Indexed)

include h

theorem Indexed.taskView_of_taskIdAt {i : Nat} {id : TaskId}
    (hi : t.taskIdAt i = some id) : t.taskView id = .ok
      ⟨(t.producedBy i).map t.partitionIdAt,
        (t.consumedBy i).map t.groupView⟩ := by
  obtain ⟨task, htask, -⟩ := Option.map_eq_some_iff.mp hi
  rw [taskView, (h.task_eq_ok hi).mpr htask, producedBy, consumedBy, htask]
  rfl

theorem Indexed.taskView_of_not_exists {id : TaskId}
    (hnone : ¬ ∃ i, t.taskIdAt i = some id) :
    t.taskView id = .error (.unknownTask id) := by
  have hindex : t.taskIndex[id]? = none := by
    rw [Option.eq_none_iff_forall_ne_some]
    exact fun i hi => hnone ⟨i, (h.tasks id i).mp hi⟩
  rw [taskView, task, hindex]
  rfl

theorem Indexed.partitionView_of_outputAt {p : Nat} {x : Output}
    (hp : t.outputAt p = some x) : t.partitionView x.id = .ok
      ⟨x.kind, t.taskIdAt x.producer, (t.consumersOf p).map fun c =>
        (t.partitionGroupAt c).bind t.groupView⟩ := by
  obtain ⟨part, hpart, rfl⟩ := Option.map_eq_some_iff.mp hp
  have hindex : t.partitionIndex[part.id]? = some p :=
    (h.partitions part.id p).mpr (by simp [hp])
  rw [partitionView, partition, hindex, consumersOf, Option.bind_some, hpart]
  rfl

theorem Indexed.partitionView_of_not_exists {id : PartitionId}
    (hnone : ¬ ∃ p x, t.outputAt p = some x ∧ x.id = id) :
    t.partitionView id = .error (.unknownPartition id) := by
  have hindex : t.partitionIndex[id]? = none := by
    rw [Option.eq_none_iff_forall_ne_some]
    intro p hp
    obtain ⟨x, hx, hid⟩ :=
      Option.map_eq_some_iff.mp ((h.partitions id p).mp hp)
    exact hnone ⟨p, x, hx, hid⟩
  rw [partitionView, partition, hindex]
  rfl

end Lookup

section Views

variable {t : Topology} (h : t.Whole) {e : JobEdge} (he : e ∈ t.graph.edges)

include h he

/-- Both ends of an edge have subtasks. -/
theorem Whole.range_ne_nil :
    List.range (t.graph.parallelismOf e.producer) ≠ [] ∧
      List.range (t.graph.parallelismOf e.target) ≠ [] := by
  obtain ⟨⟨v, hv, hvid⟩, w, hw, hwid⟩ := h.graph.exists_ends he
  have hpositive : ∀ {x : JobVertex}, x ∈ t.graph.vertices →
      List.range (t.graph.parallelismOf x.id) ≠ [] := fun hx => by
    have hlt := h.parallelism _ hx
    rw [← h.graph.parallelismOf_eq hx] at hlt
    simp [Nat.ne_of_gt hlt]
  exact ⟨hvid ▸ hpositive hv, hwid ▸ hpositive hw⟩

/-- The wire to a subtask is the one that has it. -/
theorem Whole.wireTo_eq {w : Wire} (hw : w ∈ t.graph.wiresOf e) {l : Nat}
    (hl : l ∈ w.consumers) : t.graph.wireTo e l = some w := by
  have hnodup : ((t.graph.wiresOf e).flatMap (·.consumers)).Nodup := by
    rw [JobGraph.wiresOf, Wire.flatMap_consumers _ (h.range_ne_nil he).1]
    exact List.nodup_range
  exact find?_eq_some_of_unique hw (by simpa using hl) fun w' hw' hl' =>
    eq_of_nodup_flatMap hnodup hw' hw (by simpa using hl') hl

/-- The wire from a subtask is the one that has its partition. -/
theorem Whole.wireFrom_eq {w : Wire} (hw : w ∈ t.graph.wiresOf e) {k : Nat}
    (hk : k ∈ w.partitions) : t.graph.wireFrom e k = some w := by
  have hnodup : ((t.graph.wiresOf e).flatMap (·.partitions)).Nodup := by
    rw [JobGraph.wiresOf, Wire.flatMap_partitions _ _ (h.range_ne_nil he).2]
    exact List.nodup_range
  exact find?_eq_some_of_unique hw (by simpa using hk) fun w' hw' hk' =>
    eq_of_nodup_flatMap hnodup hw' hw (by simpa using hk') hk

/-- A group of an edge is its wire. -/
theorem Whole.groupView_eq {g : Nat}
    (hg : t.exchangeAt g = some e.exchange) :
    t.numberedAt g ∈ t.graph.wiresOf e ∧
      t.groupView g = some (e.view (t.numberedAt g)) := by
  constructor
  · rw [← h.numbered_wires he]
    exact List.mem_map_of_mem ((h.mem_dataSetGroups he).mpr hg)
  · obtain ⟨group, hgroup, hexchange⟩ := Option.map_eq_some_iff.mp hg
    have hself := h.wired.grouped.consumerGroup g (lt_of_exchangeAt hg)
    rw [consumerGroupAt, hgroup, Option.map_some, Option.some.injEq] at hself
    have hpartitions : t.partitionsIn g = group.partitions := by
      rw [partitionsIn, hgroup]
      rfl
    have hids : (t.partitionsIn g).map t.partitionIdAt =
        (t.partitionsIn g).map fun p => some ⟨e.source, t.numberOf p⟩ := by
      apply List.map_congr_left
      intro p hp
      obtain ⟨i, hout, -⟩ := h.output_of_mem he hg hp
      rw [partitionIdAt, hout]
      rfl
    have hreaders : (t.tasksReading g).map t.taskIdAt =
        (t.tasksReading g).map fun i => some ⟨e.target, t.subtaskOf i⟩ :=
      List.map_congr_left fun i hi => h.taskIdAt_of_mem he hg hi
    rw [groupView, hgroup, Option.map_some, hself, hexchange, ← hpartitions,
      hids, hreaders, JobEdge.view, numberedAt, wireAt, Wire.map, List.map_map,
      List.map_map]
    rfl

/-- The groups of an edge are its wires. -/
theorem Whole.map_groupView :
    (t.dataSetGroups.getD e.source []).map t.groupView =
      (t.graph.wiresOf e).map fun w => some (e.view w) := by
  rw [← h.numbered_wires he, List.map_map]
  exact List.map_congr_left fun g hg =>
    (h.groupView_eq he ((h.mem_dataSetGroups he).mp hg)).2

end Views

section Tasks

variable {t : Topology} (h : t.Whole)

include h

/-- A task consumes the wires to it, in the order of its inputs. -/
theorem Whole.map_groupView_consumedBy {i : Nat} {id : TaskId}
    (hi : t.taskIdAt i = some id) : (t.consumedBy i).map t.groupView =
      (t.graph.edges.filter (·.target = id.vertex)).map fun e =>
        (t.graph.wireTo e id.subtask).map e.view := by
  obtain ⟨o, ho, hv⟩ := h.owned i id hi
  have hmem := (h.staffed.mem_tasks ho).mpr ⟨id, hi, hv.symm⟩
  have hexchanges := h.exchanges_of_mem ho hmem
  obtain ⟨v, hvg, hvid, hinputs⟩ := h.staffed.inputs_eq ho
  rw [← hv, ← hvid, h.graph.filter_target hvg, hinputs]
  -- Every consumed group is the wire of the input at its place.
  apply List.ext_getElem?
  intro k
  have hk := congrArg (·[k]?) hexchanges
  simp only [List.getElem?_map] at hk ⊢
  cases hg : (t.consumedBy i)[k]? with
  | none =>
    rw [hg, Option.map_none] at hk
    rw [Option.map_eq_none_iff.mp hk.symm]
    rfl
  | some g =>
    rw [hg, Option.map_some] at hk
    obtain ⟨e, he, hexchange⟩ := Option.map_eq_some_iff.mp hk.symm
    have hedge : e ∈ t.graph.edges := JobGraph.mem_edges.mpr
      ⟨v, hvg, hinputs ▸ List.mem_of_getElem? he⟩
    obtain ⟨hwire, hview⟩ := h.groupView_eq hedge hexchange.symm
    have hreads := (h.wired.grouped.mem_tasksReading g i).mpr
      (List.mem_of_getElem? hg)
    have hsubtask : id.subtask ∈ (t.numberedAt g).consumers := by
      refine List.mem_map.mpr ⟨i, hreads, ?_⟩
      rw [subtaskOf, hi]
      rfl
    rw [he, Option.map_some, Option.map_some, hview,
      h.wireTo_eq hedge hwire hsubtask]
    rfl

/-- Tasks are as the job graph says. -/
theorem Whole.taskView_eq (id : TaskId) :
    t.taskView id = t.graph.taskView id := by
  unfold JobGraph.taskView
  split
  · rename_i hlt
    obtain ⟨i, hi⟩ := h.exists_taskIdAt_iff.mpr hlt
    rw [h.wired.indexed.taskView_of_taskIdAt hi,
      h.map_groupView_consumedBy hi]
    have hproduced := congrArg (List.map (Option.map (·.id)))
      (h.wired.producing.produced i id hi)
    rw [List.map_map, List.map_map, outputs_of_taskIdAt hi] at hproduced
    exact congrArg (fun produced => Except.ok (TaskView.mk produced _))
      hproduced
  · rename_i hlt
    exact h.wired.indexed.taskView_of_not_exists
      (h.exists_taskIdAt_iff.not.mpr hlt)

end Tasks

section Partitions

variable {t : Topology} (h : t.Whole)

include h

/-- A partition is in the group on its wire. -/
theorem Whole.map_groupView_consumersOf {e : JobEdge}
    (he : e ∈ t.graph.edges) {p i k : Nat}
    (hp : t.outputAt p = some (e.output k i)) :
    ((t.consumersOf p).map fun c => (t.partitionGroupAt c).bind t.groupView) =
      [(t.graph.wireFrom e k).map e.view] := by
  have hlength := h.wired.carrying.connected p _ hp
  rw [show (e.output k i).id.dataSet = e.source from rfl,
    countP_key_eq_one (f := JobEdge.source) h.sources_nodup
      (h.edges_perm.mem_iff.mpr he)] at hlength
  -- One edge reads the dataset, so the partition is in one group.
  obtain ⟨g, hg⟩ := List.length_eq_one_iff.mp hlength
  have hin : p ∈ t.partitionsIn g :=
    (h.wired.grouped.mem_partitionsIn g p).mpr (by simp [hg])
  have hlt := lt_of_mem_partitionsIn hin
  obtain ⟨x, hx⟩ := exists_exchangeAt hlt
  have hdata := h.wired.carrying.dataSet g p hin
  rw [hp, hx] at hdata
  have hexchange : t.exchangeAt g = some e.exchange := by
    obtain ⟨e', he', rfl⟩ := h.wired.carrying.exchange g x hx
    rw [hx, h.graph.edge_inj he (h.edges_perm.mem_iff.mp he')
      (Option.some.inj hdata)]
  obtain ⟨hwire, hview⟩ := h.groupView_eq he hexchange
  have hnumber : k ∈ (t.numberedAt g).partitions := by
    refine List.mem_map.mpr ⟨p, hin, ?_⟩
    rw [numberOf, hp]
    rfl
  rw [hg, List.map_singleton, h.wired.grouped.partitionGroup g hlt,
    Option.bind_some, hview, h.wireFrom_eq he hwire hnumber]
  rfl

/-- The partitions are the outputs of the subtasks. -/
theorem Whole.exists_outputAt_iff {id : PartitionId} :
    (∃ p x, t.outputAt p = some x ∧ x.id = id) ↔
      ∃ e ∈ t.graph.edges, e.source = id.dataSet ∧
        id.number < t.graph.parallelismOf e.producer := by
  constructor
  · rintro ⟨p, x, hx, rfl⟩
    obtain ⟨id, hid, e, he, hxe⟩ := h.wired.producing.exists_output hx
    rw [outputs_of_taskIdAt hid] at he
    obtain ⟨hedge, hproducer⟩ := JobGraph.mem_outputsOf.mp he
    rw [hxe]
    refine ⟨e, hedge, rfl, ?_⟩
    rw [hproducer]
    exact h.exists_taskIdAt_iff.mp ⟨_, hid⟩
  · rintro ⟨e, he, hsource, hlt⟩
    obtain ⟨i, hi⟩ : ∃ i, t.taskIdAt i = some ⟨e.producer, id.number⟩ :=
      h.exists_taskIdAt_iff.mpr hlt
    have hproduced := h.wired.producing.produced i _ hi
    rw [outputs_of_taskIdAt hi] at hproduced
    have hmem := List.mem_map_of_mem
      (f := fun e : JobEdge => some (e.output id.number i))
      (JobGraph.mem_outputsOf.mpr ⟨he, rfl⟩)
    rw [← hproduced] at hmem
    obtain ⟨p, -, hp⟩ := List.mem_map.mp hmem
    refine ⟨p, _, hp, ?_⟩
    rw [JobEdge.output, hsource]

/-- Partitions are as the job graph says. -/
theorem Whole.partitionView_eq (id : PartitionId) :
    t.partitionView id = t.graph.partitionView id := by
  unfold JobGraph.partitionView
  split
  · rename_i e hfind
    have he := List.mem_of_find?_eq_some hfind
    have hprop := List.find?_some hfind
    obtain ⟨hsource, hlt⟩ := of_decide_eq_true hprop
    obtain ⟨p, x, hx, rfl⟩ := h.exists_outputAt_iff.mpr ⟨e, he, hsource, hlt⟩
    obtain ⟨id, hid, e', he', hxe⟩ := h.wired.producing.exists_output hx
    rw [outputs_of_taskIdAt hid] at he'
    obtain ⟨hedge', hproducer⟩ := JobGraph.mem_outputsOf.mp he'
    -- An edge is known by its dataset.
    have hsame : e' = e := h.graph.edge_inj hedge' he (by
      rw [hsource, hxe]
      rfl)
    subst hsame
    rw [h.wired.indexed.partitionView_of_outputAt hx,
      h.map_groupView_consumersOf he (hx.trans (congrArg some hxe)), hid,
      hproducer, hxe]
    rfl
  · rename_i hfind
    refine h.wired.indexed.partitionView_of_not_exists ?_
    rw [h.exists_outputAt_iff]
    rintro ⟨e, he, hprop⟩
    exact List.find?_eq_none.mp hfind e he (decide_eq_true hprop)

end Partitions

section Groups

variable {t : Topology} (h : t.Whole)

include h

/-- Every group is registered with the dataset of one edge. -/
theorem Whole.perm_groups : (List.range t.groups.size).Perm
    (t.graph.edges.flatMap fun e => t.dataSetGroups.getD e.source []) := by
  have hcarrying := h.wired.carrying
  refine (List.perm_ext_iff_of_nodup List.nodup_range ?_).mpr fun g => ?_
  · rw [List.nodup_flatMap]
    constructor
    · intro e he
      obtain ⟨o, ho, -, heo⟩ := h.exists_target he
      obtain ⟨o', ho', hid'⟩ := h.staffed.exists_producer ho heo
      exact (h.laid o ho e heo o' ho' hid').nodup
    · refine (List.pairwise_map.mp h.graph.sources).imp ?_
      intro e e' hne g hg hg'
      have hdata := (hcarrying.dataSetGroups _ _).mp hg
      rw [(hcarrying.dataSetGroups _ _).mp hg', Option.some.injEq] at hdata
      exact hne hdata.symm
  · rw [List.mem_range, List.mem_flatMap]
    constructor
    · intro hlt
      obtain ⟨x, hx⟩ := exists_exchangeAt hlt
      obtain ⟨e, he, rfl⟩ := hcarrying.exchange g x hx
      have hedge := h.edges_perm.mem_iff.mp he
      exact ⟨e, hedge, (h.mem_dataSetGroups hedge).mpr hx⟩
    · rintro ⟨e, -, hg⟩
      exact hcarrying.lt_of_mem_dataSetGroups hg

/-- The groups are the wires of the edges. -/
theorem Whole.map_groupView_perm :
    ((List.range t.groups.size).map t.groupView).Perm
      (t.graph.edges.flatMap fun e =>
        (t.graph.wiresOf e).map fun w => some (e.view w)) := by
  have hperm := h.perm_groups.map t.groupView
  rwa [List.map_flatMap,
    List.flatMap_congr fun e he => h.map_groupView he] at hperm

end Groups

/-- Topologies of one job graph have the same wiring. -/
theorem Whole.sameWiring {t u : Topology} (ht : t.Whole) (hu : u.Whole)
    (hgraph : u.graph = t.graph) : SameWiring t u where
  task id := by
    rw [hu.taskView_eq, ht.taskView_eq, hgraph]
  partition id := by
    rw [hu.partitionView_eq, ht.partitionView_eq, hgraph]
  groups := by
    have hperm := hu.map_groupView_perm
    rw [hgraph] at hperm
    exact hperm.trans ht.map_groupView_perm.symm
  dataSet d := by
    by_cases hd : ∃ e ∈ t.graph.edges, e.source = d
    · obtain ⟨e, he, rfl⟩ := hd
      rw [hu.map_groupView (hgraph ▸ he), ht.map_groupView he, hgraph]
    · have hnil : ∀ {s : Topology}, s.Whole → s.graph = t.graph →
          s.dataSetGroups.getD d [] = [] := fun hs hsame =>
        hs.wired.carrying.dataSetGroups_eq_nil fun e he hsource =>
          hd ⟨e, hsame ▸ hs.edges_perm.mem_iff.mp he, hsource⟩
      rw [hnil hu hgraph, hnil ht rfl]
      rfl

end Topology

end ControlPlane
