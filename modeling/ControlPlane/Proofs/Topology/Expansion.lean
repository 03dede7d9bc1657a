import Mathlib
import ControlPlane.Topology.Build
import ControlPlane.Proofs.JobGraph.Order
import ControlPlane.Proofs.Topology.Operators
import ControlPlane.Proofs.Topology.Wiring

/-!
# Expanding a vertex

A vertex is expanded in two steps, and both keep the links of a topology
exact: its subtasks join with their partitions, then its inputs are
connected one by one.
-/

namespace ControlPlane

namespace Topology

/-! ## Subtasks -/

section Subtasks

variable {t : Topology} {done : List JobEdge} {vertex : VertexId}

theorem sameStaff_addPartition (t : Topology) (i : TaskIndex) (e : JobEdge)
    (k : Nat) : SameStaff t (t.addPartition i e k) :=
  ⟨rfl, rfl, rfl, taskIdAt_addPartition⟩

theorem sameStaff_foldl_addPartition (t : Topology) (i : TaskIndex) (k : Nat)
    (outs : List JobEdge) :
    SameStaff t (outs.foldl (fun t e => t.addPartition i e k) t) := by
  induction outs generalizing t with
  | nil => exact .refl t
  | cons e outs ih =>
    exact (sameStaff_addPartition t i e k).trans (ih (t.addPartition i e k))

/-- Groups are left alone, and so are the partitions that were there. -/
structure SameGroups (t t' : Topology) : Prop where
  dataSetGroups : t'.dataSetGroups = t.dataSetGroups
  groups : t'.groups = t.groups
  consumerGroups : t'.consumerGroups = t.consumerGroups
  size_le : t.partitions.size ≤ t'.partitions.size
  outputAt : ∀ p < t.partitions.size, t'.outputAt p = t.outputAt p

theorem SameGroups.refl (t : Topology) : SameGroups t t :=
  ⟨rfl, rfl, rfl, Nat.le_refl _, fun _ _ => rfl⟩

theorem SameGroups.trans {t t' t'' : Topology} (h : SameGroups t t')
    (h' : SameGroups t' t'') : SameGroups t t'' where
  dataSetGroups := h'.dataSetGroups.trans h.dataSetGroups
  groups := h'.groups.trans h.groups
  consumerGroups := h'.consumerGroups.trans h.consumerGroups
  size_le := h.size_le.trans h'.size_le
  outputAt p hp := (h'.outputAt p (Nat.lt_of_lt_of_le hp h.size_le)).trans
    (h.outputAt p hp)

theorem sameGroups_foldl_addPartition (t : Topology) (i : TaskIndex) (k : Nat)
    (outs : List JobEdge) :
    SameGroups t (outs.foldl (fun t e => t.addPartition i e k) t) := by
  induction outs generalizing t with
  | nil => exact .refl t
  | cons e outs ih =>
    have hstep : SameGroups t (t.addPartition i e k) := by
      refine ⟨rfl, rfl, rfl, ?_, ?_⟩
      · rw [size_partitions_addPartition]
        omega
      · intro p hp
        rw [outputAt_addPartition, if_neg (Nat.ne_of_lt hp)]
    exact hstep.trans (ih (t.addPartition i e k))

/-- A partition of a further output has an id of its own. -/
theorem Producing.fresh_output {outs : TaskIndex → List JobEdge}
    (h : t.Producing outs) (hindexed : t.Indexed)
    (hg : t.graph.WellFormed)
    (houts : ∀ i id, t.taskIdAt i = some id →
      ∀ e ∈ outs i, e ∈ t.graph.outputsOf id.vertex)
    {i : Nat} {id : TaskId} (hi : t.taskIdAt i = some id) {e : JobEdge}
    (he : e ∈ t.graph.outputsOf id.vertex) (hnew : e ∉ outs i) :
    ∀ p x, t.outputAt p = some x → x.id ≠ ⟨e.source, id.subtask⟩ := by
  intro p x hp heq
  obtain ⟨id', hid', e', he', hx⟩ := h.exists_output hp
  have hmem := houts _ _ hid' e' he'
  obtain ⟨hedge, hproducer⟩ := JobGraph.mem_outputsOf.mp he
  obtain ⟨hedge', hproducer'⟩ := JobGraph.mem_outputsOf.mp hmem
  rw [hx] at heq
  simp only [JobEdge.output, PartitionId.mk.injEq] at heq
  have hsame : e' = e := hg.edge_inj hedge' hedge heq.1
  subst hsame
  have hidEq : id' = id := by
    have hv : id'.vertex = id.vertex := hproducer'.symm.trans hproducer
    cases id
    cases id'
    rw [TaskId.mk.injEq]
    exact ⟨hv, heq.2⟩
  subst hidEq
  have hpos := hindexed.taskId_inj hid' hi
  exact hnew (hpos ▸ he')

theorem outputsOf_nodup {g : JobGraph} (hg : g.WellFormed) (id : VertexId) :
    (g.outputsOf id).Nodup :=
  (List.Nodup.of_map _ hg.sources).filter _

/-- No edge is connected that starts or ends at a vertex without tasks. -/
theorem countP_source_eq_zero (hg : t.graph.WellFormed)
    (hdone : ∀ e ∈ done, e ∈ t.graph.edges ∧ e.target ≠ vertex ∧
      e.producer ≠ vertex) {e : JobEdge}
    (he : e ∈ t.graph.outputsOf vertex) :
    done.countP (·.source = e.source) = 0 := by
  rw [List.countP_eq_zero]
  intro e' he' heq
  obtain ⟨hedge, hproducer⟩ := JobGraph.mem_outputsOf.mp he
  obtain ⟨hedge', -, hne⟩ := hdone e' he'
  have hsame := hg.edge_inj hedge' hedge (by simpa using heq)
  exact hne (hsame ▸ hproducer)

/-- What one output of a new task has to keep for all outputs to end in a
topology with exact links. -/
structure OutputStep (t : Topology) (done : List JobEdge) (i : TaskIndex)
    (e : JobEdge) (t' : Topology) : Prop where
  staff : SameStaff t t'
  indexed : t'.Indexed
  grouped : t'.Grouped
  carrying : t'.Carrying done
  producing : ∀ outs, t.Producing outs →
    t'.Producing (Function.update outs i (outs i ++ [e]))

/-- A task that produces nothing yet gets one partition for each output of
its vertex. -/
theorem wired_foldl_outputs {i k : Nat}
    {f : Topology → JobEdge → Topology} (hg : t.graph.WellFormed)
    (hi : t.taskIdAt i = some ⟨vertex, k⟩) (hindexed : t.Indexed)
    (hproducing : t.Producing (Function.update t.outputs i []))
    (hgrouped : t.Grouped) (hcarrying : t.Carrying done)
    (hstep : ∀ s e, SameStaff t s → s.Indexed → s.Grouped →
      s.Carrying done → e ∈ t.graph.outputsOf vertex →
      (∀ p x, s.outputAt p = some x → x.id ≠ ⟨e.source, k⟩) →
      OutputStep s done i e (f s e)) :
    ((t.graph.outputsOf vertex).foldl f t).Wired done := by
  have houtputs : t.outputs i = t.graph.outputsOf vertex :=
    outputs_of_taskIdAt hi
  -- The induction is on the outputs left; the others are produced already.
  have hfold : ∀ (rest pre : List JobEdge) (s : Topology),
      t.graph.outputsOf vertex = pre ++ rest → SameStaff t s →
      s.Indexed → s.Producing (Function.update t.outputs i pre) →
      s.Grouped → s.Carrying done → (rest.foldl f s).Wired done := by
    intro rest
    induction rest with
    | nil =>
      intro pre s hpre hs hindexed hproducing hgrouped hcarrying
      refine ⟨hindexed, hproducing.congr ?_, hgrouped, hcarrying⟩
      intro j id _
      rw [List.foldl_nil, hs.outputs]
      by_cases hj : j = i
      · subst hj
        rw [Function.update_self, houtputs]
        exact hpre.trans (List.append_nil pre)
      · rw [Function.update_of_ne hj]
    | cons e rest ih =>
      intro pre s hpre hs hindexed hproducing hgrouped hcarrying
      have hgraph : s.graph = t.graph := hs.graph
      have he : e ∈ t.graph.outputsOf vertex := by simp [hpre]
      have hnew : e ∉ pre := by
        have hnodup := outputsOf_nodup hg vertex
        rw [hpre, List.nodup_append] at hnodup
        intro hmem
        exact hnodup.2.2 e hmem e List.mem_cons_self rfl
      have hfresh := hproducing.fresh_output hindexed (hgraph ▸ hg) (by
          intro j id hj e' he'
          rw [hs.taskIdAt] at hj
          rw [hgraph, ← outputs_of_taskIdAt hj]
          by_cases hji : j = i
          · subst hji
            rw [Function.update_self] at he'
            rw [houtputs, hpre]
            exact List.mem_append_left _ he'
          · rwa [Function.update_of_ne hji] at he')
        ((hs.taskIdAt i).trans hi) (hgraph ▸ he)
        (by rwa [Function.update_self])
      have hnext := hstep s e hs hindexed hgrouped hcarrying he hfresh
      have hproduced := hnext.producing _ hproducing
      rw [Function.update_self, Function.update_idem] at hproduced
      exact ih (pre ++ [e]) (f s e) (by simpa using hpre)
        (hs.trans hnext.staff) hnext.indexed hproduced hnext.grouped
        hnext.carrying
  exact hfold (t.graph.outputsOf vertex) [] t rfl (.refl t) hindexed
    hproducing hgrouped hcarrying

/-- Behind the others, a new task has no outputs yet. -/
theorem Producing.pushTask_outputs (h : t.Producing t.outputs) {task : Task}
    (hproduced : task.produced = []) :
    (t.pushTask task).Producing
      (Function.update (t.pushTask task).outputs t.tasks.size []) := by
  refine (h.pushTask hproduced).congr ?_
  intro i id hi
  by_cases hin : i = t.tasks.size
  · rw [hin, Function.update_self, Function.update_self]
  · rw [Function.update_of_ne hin, Function.update_of_ne hin]
    rw [Topology.outputs, Topology.outputs, taskIdAt_pushTask, if_neg hin]
    rfl

/-- One subtask joins, with a partition for each output. -/
theorem Wired.addSubtask (h : t.Wired done) (hg : t.graph.WellFormed)
    (hdone : ∀ e ∈ done, e ∈ t.graph.edges ∧ e.target ≠ vertex ∧
      e.producer ≠ vertex) {k : Nat}
    (fresh : ∀ i, t.taskIdAt i ≠ some ⟨vertex, k⟩) :
    (addSubtask vertex (t.graph.outputsOf vertex) t k).Wired done := by
  have hid : (t.pushTask { id := ⟨vertex, k⟩ }).taskIdAt t.tasks.size =
      some ⟨vertex, k⟩ := by
    rw [taskIdAt_pushTask, if_pos rfl]
  have hempty : done.filter (·.target = vertex) = [] := by
    rw [List.filter_eq_nil_iff]
    intro e he
    simp [(hdone e he).2.1]
  refine wired_foldl_outputs (t := t.pushTask { id := ⟨vertex, k⟩ })
    (f := fun s e => s.addPartition t.tasks.size e k) hg hid
    (h.indexed.pushTask fresh) (h.producing.pushTask_outputs rfl)
    (h.grouped.pushTask rfl) (h.carrying.pushTask (by simp [hempty])) ?_
  intro s e hs hindexed hgrouped hcarrying he hfresh
  refine ⟨sameStaff_addPartition s _ e k, hindexed.addPartition hfresh,
    hgrouped.addPartition, hcarrying.addPartition hgrouped
      (countP_source_eq_zero hg hdone he), ?_⟩
  intro outs houts
  exact houts.addPartition ((hs.taskIdAt _).trans hid) rfl

theorem taskIdAt_addSubtask (outs : List JobEdge) (k i : Nat) :
    (addSubtask vertex outs t k).taskIdAt i =
      if i = t.tasks.size then some ⟨vertex, k⟩ else t.taskIdAt i := by
  have hs := sameStaff_foldl_addPartition (t.pushTask { id := ⟨vertex, k⟩ })
    t.tasks.size k outs
  rw [show (addSubtask vertex outs t k).taskIdAt i = _ from hs.taskIdAt i,
    taskIdAt_pushTask]

theorem size_tasks_addSubtask (outs : List JobEdge) (k : Nat) :
    (addSubtask vertex outs t k).tasks.size = t.tasks.size + 1 := by
  have hfold : ∀ (t : Topology) (i : Nat),
      (outs.foldl (fun t e => t.addPartition i e k) t).tasks.size =
        t.tasks.size := by
    induction outs with
    | nil => exact fun _ _ => rfl
    | cons e outs ih =>
      intro t i
      rw [List.foldl_cons, ih, size_tasks_addPartition]
  rw [addSubtask, hfold, Array.size_push]

/-- What adding the first subtasks of a vertex amounts to. -/
structure Hired (t : Topology) (vertex : VertexId) (n : Nat)
    (t' : Topology) : Prop where
  graph : t'.graph = t.graph
  operators : t'.operators = t.operators
  operatorIndex : t'.operatorIndex = t.operatorIndex
  size : t'.tasks.size = t.tasks.size + n
  taskIdAt : ∀ i : Nat, t'.taskIdAt i =
    if i < t.tasks.size then t.taskIdAt i
    else if i < t.tasks.size + n then some ⟨vertex, i - t.tasks.size⟩
    else none
  sameGroups : SameGroups t t'

theorem Hired.appends {t t' : Topology} {vertex : VertexId} {n : Nat}
    (hh : t.Hired vertex n t') : t.Appends vertex 0 n t' := by
  intro i
  rw [hh.taskIdAt]
  simp only [Nat.zero_add]

theorem hired_addSubtasks (t : Topology) (vertex : VertexId)
    (outs : List JobEdge) (n : Nat) :
    t.Hired vertex n ((List.range n).foldl (addSubtask vertex outs) t) := by
  induction n with
  | zero =>
    refine ⟨rfl, rfl, rfl, rfl, ?_, .refl t⟩
    intro i
    by_cases hi : i < t.tasks.size
    · simp [hi]
    · simp [hi, taskIdAt]
  | succ n ih =>
    rw [List.range_succ, List.foldl_append]
    set t' := (List.range n).foldl (addSubtask vertex outs) t
    have hs := sameStaff_foldl_addPartition
      (t'.pushTask { id := ⟨vertex, n⟩ }) t'.tasks.size n outs
    have hgroups := sameGroups_foldl_addPartition
      (t'.pushTask { id := ⟨vertex, n⟩ }) t'.tasks.size n outs
    have hpush : SameGroups t' (t'.pushTask { id := ⟨vertex, n⟩ }) :=
      ⟨rfl, rfl, rfl, Nat.le_refl _, fun _ _ => rfl⟩
    refine ⟨hs.graph.trans ih.graph, hs.operators.trans ih.operators,
      hs.operatorIndex.trans ih.operatorIndex, ?_, ?_,
      ih.sameGroups.trans (hpush.trans hgroups)⟩
    · rw [List.foldl_cons, List.foldl_nil, size_tasks_addSubtask, ih.size]
      omega
    · intro i
      rw [List.foldl_cons, List.foldl_nil, taskIdAt_addSubtask, ih.size,
        ih.taskIdAt i]
      rcases Nat.lt_trichotomy i (t.tasks.size + n) with hlt | heq | hgt
      · have h1 : i ≠ t.tasks.size + n := by omega
        have h2 : i < t.tasks.size + (n + 1) := by omega
        simp [h1, h2, hlt]
      · have h1 : ¬ t.tasks.size + n < t.tasks.size := by omega
        have h2 : t.tasks.size + n < t.tasks.size + (n + 1) := by omega
        simp [heq, h1, h2]
      · have h1 : i ≠ t.tasks.size + n := by omega
        have h2 : ¬ i < t.tasks.size + n := by omega
        have h3 : ¬ i < t.tasks.size + (n + 1) := by omega
        simp [h1, h2, h3]

/-- The first subtasks of a vertex join. -/
theorem Wired.addSubtasks (h : t.Wired done) (hg : t.graph.WellFormed)
    (hdone : ∀ e ∈ done, e ∈ t.graph.edges ∧ e.target ≠ vertex ∧
      e.producer ≠ vertex)
    (fresh : ∀ i id, t.taskIdAt i = some id → id.vertex ≠ vertex) (n : Nat) :
    ((List.range n).foldl
      (Topology.addSubtask vertex (t.graph.outputsOf vertex)) t).Wired done := by
  induction n with
  | zero => exact h
  | succ n ih =>
    rw [List.range_succ, List.foldl_append]
    have hh := hired_addSubtasks t vertex (t.graph.outputsOf vertex) n
    set t' := (List.range n).foldl
      (Topology.addSubtask vertex (t.graph.outputsOf vertex)) t
    have hnext : (Topology.addSubtask vertex (t'.graph.outputsOf vertex) t'
        n).Wired done := ih.addSubtask
      (by rwa [hh.graph]) (by rwa [hh.graph]) (by
        intro i hi
        rw [hh.taskIdAt] at hi
        split at hi
        · exact fresh i _ hi rfl
        · split at hi
          · rename_i _ hlt
            simp only [Option.some.injEq, TaskId.mk.injEq] at hi
            omega
          · cases hi)
    rwa [hh.graph] at hnext

end Subtasks

/-! ## Inputs -/

section Inputs

variable {t : Topology} {done : List JobEdge} {e : JobEdge}

/-- A partition found for a task and a dataset is produced by the task and
belongs to the dataset. -/
theorem of_partitionOf? (h : t.Wired done) {i p : Nat} {d : DataSetId}
    (hp : t.partitionOf? d i = some p) :
    ∃ x, t.outputAt p = some x ∧ x.id.dataSet = d ∧ x.producer = i := by
  obtain ⟨task, htask, hfind⟩ := Option.bind_eq_some_iff.mp hp
  have hmem : p ∈ t.producedBy i := by
    simpa [producedBy, htask] using List.mem_of_find?_eq_some hfind
  obtain ⟨id, hid⟩ := exists_taskIdAt (lt_of_mem_producedBy hmem)
  obtain ⟨e, -, hx⟩ := h.producing.outputAt_of_mem hid hmem
  refine ⟨_, hx, ?_, rfl⟩
  have hd := List.find?_some hfind
  obtain ⟨part, hpart, hpid⟩ := Option.map_eq_some_iff.mp hx
  simp only [hpart, Option.map_some, Option.some.injEq,
    decide_eq_true_eq] at hd
  rw [← hpid]
  exact hd

/-- The partition of a dataset is found at its producer. -/
theorem partitionOf?_of_outputAt (h : t.Wired done)
    {p : Nat} {x : Output} (hp : t.outputAt p = some x) :
    t.partitionOf? x.id.dataSet x.producer = some p := by
  have hmem := h.producing.producer p x hp
  have hlt := lt_of_mem_producedBy hmem
  have htask : t.tasks[x.producer]? = some t.tasks[x.producer] := by
    simp [hlt]
  have hproduced := producedBy_of_getElem? htask
  have hfound : ∃ q, t.partitionOf? x.id.dataSet x.producer = some q := by
    rw [partitionOf?, htask, Option.bind_eq_bind, Option.bind_some,
      ← Option.isSome_iff_exists, List.find?_isSome]
    obtain ⟨part, hpart, hpid⟩ := Option.map_eq_some_iff.mp hp
    refine ⟨p, hproduced ▸ hmem, ?_⟩
    simp [hpart, ← hpid]
  obtain ⟨q, hq⟩ := hfound
  obtain ⟨y, hy, hdata, hproducer⟩ := of_partitionOf? h hq
  -- Both come from one output, because an edge is known by its dataset.
  obtain ⟨id, hid, e, he, hx⟩ := h.producing.exists_output hp
  obtain ⟨id', hid', e', he', hy'⟩ := h.producing.exists_output hy
  rw [hproducer, hid, Option.some.injEq] at hid'
  subst hid'
  have hsame : y.id = x.id := by
    rw [hx, hy'] at hdata ⊢
    simp only [JobEdge.output] at hdata ⊢
    rw [hdata]
  rw [hq, h.indexed.partitionId_inj hy hp hsame]

/-- The partitions found for the tasks of an operator are those of the
dataset, each once. -/
theorem nodup_filterMap_partitionOf? (h : t.Wired done) {tasks : List Nat}
    (htasks : tasks.Nodup) (d : DataSetId) :
    (tasks.filterMap (t.partitionOf? d)).Nodup := by
  apply htasks.filterMap
  intro i i' p hi hi'
  obtain ⟨x, hx, -, hproducer⟩ := of_partitionOf? h hi
  obtain ⟨x', hx', -, hproducer'⟩ := of_partitionOf? h hi'
  rw [hx, Option.some.injEq] at hx'
  subst hx'
  exact hproducer.symm.trans hproducer'

theorem mem_filterMap_partitionOf? (h : t.Wired done) (hs : t.Staffed)
    (hg : t.graph.WellFormed) (he : e ∈ t.graph.edges) {o : Operator}
    (ho : o ∈ t.operators) (hid : o.id = e.producer) (p : Nat) :
    p ∈ o.tasks.filterMap (t.partitionOf? e.source) ↔
      ∃ x, t.outputAt p = some x ∧ x.id.dataSet = e.source := by
  constructor
  · intro hp
    obtain ⟨i, -, hi⟩ := List.mem_filterMap.mp hp
    obtain ⟨x, hx, hdata, -⟩ := of_partitionOf? h hi
    exact ⟨x, hx, hdata⟩
  · rintro ⟨x, hx, hdata⟩
    have hfind := partitionOf?_of_outputAt h hx
    rw [hdata] at hfind
    refine List.mem_filterMap.mpr ⟨x.producer, ?_, hfind⟩
    obtain ⟨id, hproducer, e', he', hxe⟩ := h.producing.exists_output hx
    rw [outputs_of_taskIdAt hproducer] at he'
    obtain ⟨hedge', hvertex⟩ := JobGraph.mem_outputsOf.mp he'
    have hsame : e' = e := hg.edge_inj hedge' he (by
      rw [← hdata, hxe]
      rfl)
    subst hsame
    exact (hs.mem_tasks ho).mpr ⟨id, hproducer, hvertex.symm.trans hid.symm⟩

/-- The partitions of an edge, one for each of the given subtasks. -/
def Produces (t : Topology) (e : JobEdge) (tasks : List TaskIndex)
    (ps : List PartitionIndex) : Prop :=
  ps.map t.outputAt = tasks.zipIdx.map fun x => some (e.output x.2 x.1)

/-- Every subtask of a vertex has a partition for each of its outputs. -/
theorem Wired.produces (h : t.Wired done) (hs : t.Staffed)
    (he : e ∈ t.graph.edges) {o : Operator} (ho : o ∈ t.operators)
    (hid : o.id = e.producer) :
    (o.tasks.filterMap (t.partitionOf? e.source)).length = o.tasks.length ∧
      t.Produces e o.tasks (o.tasks.filterMap (t.partitionOf? e.source)) := by
  have hout : e ∈ t.graph.outputsOf o.id :=
    JobGraph.mem_outputsOf.mpr ⟨he, hid.symm⟩
  refine map_filterMap_eq_zipIdx (h := fun k i => some (e.output k i)) 0 ?_
  intro k i hk
  have hi := hs.taskIdAt_getElem? ho hk
  have hproduced := h.producing.produced i _ hi
  rw [outputs_of_taskIdAt hi] at hproduced
  have hmem := List.mem_map_of_mem
    (f := fun e : JobEdge => some (e.output k i)) hout
  rw [← hproduced] at hmem
  obtain ⟨p, -, hp⟩ := List.mem_map.mp hmem
  rw [Nat.zero_add]
  exact ⟨p, partitionOf?_of_outputAt h hp, hp⟩

/-- What connecting an edge between the given subtasks amounts to. -/
structure Connected (t : Topology) (done : List JobEdge) (e : JobEdge)
    (producers consumers : List TaskIndex) (t' : Topology) : Prop where
  wired : t'.Wired (done ++ [e])
  staff : SameStaff t t'
  groups : ∃ ps, t.Produces e producers ps ∧
    (∀ w ∈ Wire.ofPattern e.pattern ps consumers, w.Fits t) ∧
    t' = t.addGroups e (Wire.ofPattern e.pattern ps consumers)

/-- An edge from an operator can be connected. -/
theorem Wired.connectInput_eq_ok (h : t.Wired done) (hs : t.Staffed)
    (he : e ∈ t.graph.edges) {o : Operator} (ho : o ∈ t.operators)
    (hid : o.id = e.producer) (consumers : List TaskIndex) :
    connectInput consumers t e = .ok (t.addGroups e (Wire.ofPattern e.pattern
      (o.tasks.filterMap (t.partitionOf? e.source)) consumers)) := by
  have hoperator := hs.operator_eq_ok.mpr ⟨ho, hid⟩
  have hlength := (h.produces hs he ho hid).1
  simp [Topology.connectInput, hoperator, bind, Except.bind, pure,
    Except.pure, hlength]

/-- Groups do not touch the operators, and no task is added with them. -/
theorem operators_addGroups (t : Topology) (e : JobEdge) (ws : List Wire) :
    (t.addGroups e ws).graph = t.graph ∧
      (t.addGroups e ws).operators = t.operators ∧
      (t.addGroups e ws).operatorIndex = t.operatorIndex ∧
      (t.addGroups e ws).tasks.size = t.tasks.size := by
  have hfold : ∀ (ws : List Wire) (t : Topology),
      (ws.foldl (addGroup e) t).graph = t.graph ∧
      (ws.foldl (addGroup e) t).operators = t.operators ∧
      (ws.foldl (addGroup e) t).operatorIndex = t.operatorIndex ∧
      (ws.foldl (addGroup e) t).tasks.size = t.tasks.size := by
    intro ws
    induction ws with
    | nil => exact fun t => ⟨rfl, rfl, rfl, rfl⟩
    | cons w ws ih =>
      intro t
      obtain ⟨hgraph, hops, hindex, hsize⟩ := ih (addGroup e t w)
      exact ⟨hgraph, hops, hindex, hsize.trans size_tasks_addGroup⟩
  exact hfold ws t

/-- Groups do not touch the staff. -/
theorem sameStaff_addGroups {ws : List Wire} (hfits : ∀ w ∈ ws, w.Fits t) :
    SameStaff t (t.addGroups e ws) := by
  obtain ⟨hgraph, hops, hindex, -⟩ := operators_addGroups t e ws
  exact ⟨hgraph, hops, hindex, taskIdAt_addGroups hfits⟩

theorem exists_producer_of_connectInput (hs : t.Staffed)
    {consumers : List TaskIndex} {t' : Topology}
    (hok : connectInput consumers t e = .ok t') :
    ∃ o ∈ t.operators, o.id = e.producer := by
  obtain ⟨o, hproducer, -⟩ := bind_eq_ok_iff.mp hok
  exact ⟨o, hs.operator_eq_ok.mp hproducer⟩

/-- Connecting an input of a vertex whose tasks are all there. -/
theorem Wired.connectInput (h : t.Wired done) (hs : t.Staffed)
    (hg : t.graph.WellFormed)
    (hpos : ∀ v ∈ t.graph.vertices, 0 < v.parallelism)
    (he : e ∈ t.graph.edges) (hnew : ∀ e' ∈ done, e'.source ≠ e.source)
    {consumers : List Nat} (hnodup : consumers.Nodup)
    (hne : consumers ≠ [])
    (hmem : ∀ i, i ∈ consumers ↔
      ∃ id, t.taskIdAt i = some id ∧ id.vertex = e.target)
    {t' : Topology} (hok : connectInput consumers t e = .ok t') :
    ∃ o ∈ t.operators, o.id = e.producer ∧
      t.Connected done e o.tasks consumers t' := by
  obtain ⟨o, ho, hid⟩ := exists_producer_of_connectInput hs hok
  refine ⟨o, ho, hid, ?_⟩
  rw [h.connectInput_eq_ok hs he ho hid, Except.ok.injEq] at hok
  obtain ⟨hlen, hproduces⟩ := h.produces hs he ho hid
  set ps := o.tasks.filterMap (t.partitionOf? e.source) with hps
  subst hok
  have hps_ne : ps ≠ [] := by
    obtain ⟨v, hv, hov⟩ := hs.vertex o ho
    have hparallelism : 0 < o.parallelism := by
      rw [hov]
      exact hpos v hv
    intro hnil
    rw [hnil, List.length_nil, hs.length_tasks ho] at hlen
    omega
  have hconnects : t.Connects e (Wire.ofPattern e.pattern ps consumers) := by
    refine ⟨?_, ?_, ?_, ?_, ?_⟩
    · rw [Wire.flatMap_partitions _ _ hne]
      exact nodup_filterMap_partitionOf? h (hs.nodup_tasks ho) _
    · rwa [Wire.flatMap_consumers _ hps_ne]
    · rw [Wire.flatMap_partitions _ _ hne]
      exact mem_filterMap_partitionOf? h hs hg he ho hid
    · rwa [Wire.flatMap_consumers _ hps_ne]
    · intro hpattern
      simp [hpattern, Wire.ofPattern]
  have hfits := hconnects.fits
  have hsame := sameStaff_addGroups (e := e) hfits
  refine ⟨⟨h.indexed.addGroups hfits, ?_, h.grouped.addGroups hfits,
    h.carrying.addGroups hconnects h.grouped hnew⟩, hsame,
    ps, hproduces, hfits, rfl⟩
  exact (h.producing.addGroups hfits).congr fun i id _ => hsame.outputs i

end Inputs

end Topology

end ControlPlane
