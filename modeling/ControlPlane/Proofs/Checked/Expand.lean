import Mathlib
import ControlPlane.Proofs.Checked.Links
import ControlPlane.Proofs.Checked.Sort

/-!
# Expanding vertices looks up nothing that is not there

A vertex that reads from one without an operator is refused, so every
position that is followed while an edge is connected leads somewhere. The
ranges of a pointwise edge are cut within the side they cut, and by the number
of subtasks of the other side, which has one for every range.
-/

namespace ControlPlane

namespace Checked

/-! ## The checked expansion -/

/-- The vertex with an id. -/
def vertex (g : JobGraph) (id : VertexId) : Except Stop JobVertex := do
  reach g.vertices[← returned (g.position id)]?

/-- The operator with an id. -/
def operator (t : Topology) (id : VertexId) : Except Stop Operator := do
  reach t.operators[← returned (t.operatorAt id)]?

/-- Adds the partition of a dataset that a task produces. -/
def addPartition (t : Topology) (producer : TaskIndex) (edge : JobEdge)
    (number : Nat) : Except Stop Topology := do
  let _ ← reach t.tasks[producer]?
  return t.addPartition producer edge number

/-- Adds one subtask of a vertex with its partitions. -/
def addSubtask (vertex : VertexId) (outputs : List JobEdge) (t : Topology)
    (subtask : Nat) : Except Stop Topology :=
  outputs.foldlM (addPartition · t.tasks.size · subtask)
    (t.pushTask { id := ⟨vertex, subtask⟩ })

/-- The quotient of two numbers. -/
def divide (a b : Nat) : Except Stop Nat :=
  if b = 0 then .error .zeroDivisor else .ok (a / b)

/-- The quotient of two numbers, rounded up. -/
def ceilDiv (a b : Nat) : Except Stop Nat := divide (a + b - 1) b

/-- The part of a list from one position up to another. -/
def slice (xs : List Nat) (start stop : Nat) : Except Stop (List Nat) :=
  if start ≤ stop ∧ stop ≤ xs.length then
    .ok (Wire.slice xs.toArray start stop)
  else .error .outOfRange

/-- The wires of a pointwise edge. -/
def pointwise (partitions : List PartitionIndex) (consumers : List TaskIndex) :
    Except Stop (List Wire) :=
  let sources := partitions.length
  let targets := consumers.length
  if sources = targets then
    .ok (List.zipWith (fun p c => ⟨[p], [c]⟩) partitions consumers)
  else if targets < sources then
    consumers.zipIdx.mapM fun (c, i) => do
      let start ← divide (i * sources) targets
      let stop ← divide ((i + 1) * sources) targets
      return ⟨← slice partitions start stop, [c]⟩
  else
    partitions.zipIdx.mapM fun (p, i) => do
      let start ← ceilDiv (i * targets) sources
      let stop ← ceilDiv ((i + 1) * targets) sources
      return ⟨[p], ← slice consumers start stop⟩

/-- The wires of an edge. -/
def ofPattern (pattern : Pattern) (partitions : List PartitionIndex)
    (consumers : List TaskIndex) : Except Stop (List Wire) :=
  match pattern with
  | .allToAll => .ok [⟨partitions, consumers⟩]
  | .pointwise => pointwise partitions consumers

/-- Adds a partition group and its consumer group. -/
def addGroup (edge : JobEdge) (t : Topology) (wire : Wire) :
    Except Stop Topology := do
  wire.partitions.forM fun p => discard (reach t.partitions[p]?)
  wire.consumers.forM fun i => discard (reach t.tasks[i]?)
  return Topology.addGroup edge t wire

/-- Adds the groups of all wires of an edge. -/
def addGroups (t : Topology) (edge : JobEdge) (wires : List Wire) :
    Except Stop Topology := do
  let groups := List.range' t.groups.size wires.length
  return { (← wires.foldlM (addGroup edge) t) with
    dataSetGroups := t.dataSetGroups.insert edge.source
      (t.dataSetGroups.getD edge.source [] ++ groups) }

/-- The first partition of a dataset that a task produces. -/
def partitionOf? (t : Topology) (dataSet : DataSetId) (index : TaskIndex) :
    Except Stop (Option PartitionIndex) := do
  let task ← reach t.tasks[index]?
  task.produced.findM? fun p => do
    return (← reach t.partitions[p]?).id.dataSet = dataSet

/-- Wires one input edge into the tasks of its target. -/
def connectInput (consumers : List TaskIndex) (t : Topology)
    (edge : JobEdge) : Except Stop Topology := do
  let producer ← operator t edge.producer
  let found ← producer.tasks.mapM (partitionOf? t edge.source)
  let partitions := found.filterMap id
  if partitions.length ≠ producer.tasks.length then
    throw (.refused
      (.invalidGraph (.missingPartitions edge.source producer.name)))
  addGroups t edge (← ofPattern edge.pattern partitions consumers)

/-- Expands one vertex of the job graph. -/
def addOperator (t : Topology) (id : VertexId) : Except Stop Topology := do
  let vertex ← vertex t.graph id
  let outputs := t.graph.outputsOf id
  let subtasks := List.range vertex.parallelism
  let tasks := subtasks.map (t.tasks.size + ·)
  let t ← subtasks.foldlM (addSubtask vertex.id outputs) t
  let t ← vertex.inputs.foldlM (connectInput tasks) t
  return t.place vertex tasks

/-! ## Vertices and operators -/

theorem vertex_eq_returned {g : JobGraph} (hg : g.IndexInRange)
    (id : VertexId) : vertex g id = returned (g.vertex id) := by
  unfold vertex JobGraph.vertex JobGraph.position
  cases hpos : g.positions[id]? with
  | none => simp
  | some pos => simp [hg id pos hpos]

theorem operator_eq_returned {t : Topology}
    (ht : ∀ (id : VertexId) (pos : Nat),
      t.operatorIndex[id]? = some pos → pos < t.operators.length)
    (id : VertexId) : operator t id = returned (t.operator id) := by
  unfold operator Topology.operator Topology.operatorAt
  cases hpos : t.operatorIndex[id]? with
  | none => simp
  | some pos => simp [ht id pos hpos]

/-- An operator is found at a position that its id leads to. -/
theorem exists_of_operator {t : Topology} {id : VertexId} {o : Operator}
    (h : t.operator id = .ok o) : ∃ pos : Nat,
      t.operatorIndex[id]? = some pos ∧ t.operators[pos]? = some o := by
  unfold Topology.operator at h
  split at h
  · rename_i heq
    cases h
    exact Option.bind_eq_some_iff.mp heq
  · cases h

/-! ## Subtasks -/

theorem addSubtask_eq_ok (vertex : VertexId) (outputs : List JobEdge)
    (t : Topology) (subtask : Nat) :
    addSubtask vertex outputs t subtask =
      .ok (Topology.addSubtask vertex outputs t subtask) := by
  refine (foldlM_eq_ok (P := fun s : Topology => t.tasks.size < s.tasks.size)
    ?_ ?_).1
  · intro edge _ s hs
    refine ⟨?_, by simpa using hs⟩
    rw [addPartition, reach_array hs]
    rfl
  · simp [Topology.pushTask]

theorem addSubtasks_eq_ok (vertex : VertexId) (outputs : List JobEdge)
    (t : Topology) (n : Nat) :
    (List.range n).foldlM (addSubtask vertex outputs) t =
      .ok ((List.range n).foldl (Topology.addSubtask vertex outputs) t) :=
  (foldlM_eq_ok (P := fun _ => True)
    (fun k _ s _ => ⟨addSubtask_eq_ok vertex outputs s k, trivial⟩)
    trivial).1

/-! ## Wires -/

theorem slice_eq_ok {xs : List Nat} {start stop : Nat} (hle : start ≤ stop)
    (hstop : stop ≤ xs.length) :
    slice xs start stop = .ok (Wire.slice xs.toArray start stop) := by
  rw [slice, if_pos ⟨hle, hstop⟩]

theorem divide_eq_ok {b : Nat} (hb : 0 < b) (a : Nat) :
    divide a b = .ok (a / b) := by
  rw [divide, if_neg (Nat.ne_of_gt hb)]

theorem ceilDiv_eq_ok {b : Nat} (hb : 0 < b) (a : Nat) :
    ceilDiv a b = .ok (Wire.ceilDiv a b) := divide_eq_ok hb _

/-- Every range is cut inside the side that it is cut from. -/
theorem pointwise_eq_ok (ps : List PartitionIndex) (cs : List TaskIndex) :
    pointwise ps cs = .ok (Wire.pointwise ps cs) := by
  simp only [pointwise, Wire.pointwise]
  split
  · rfl
  · split
    · apply mapM_eq_ok
      rintro ⟨c, i⟩ hc
      have hi : i < cs.length := by
        simpa using List.snd_lt_add_of_mem_zipIdx hc
      have hpos : 0 < cs.length := by omega
      simp only [divide_eq_ok hpos, ok_bind]
      rw [slice_eq_ok (Wire.mul_div_le_succ ..) (Wire.succ_mul_div_le hi)]
      rfl
    · apply mapM_eq_ok
      rintro ⟨p, i⟩ hp
      have hi : i < ps.length := by
        simpa using List.snd_lt_add_of_mem_zipIdx hp
      have hpos : 0 < ps.length := by omega
      simp only [ceilDiv_eq_ok hpos, ok_bind]
      rw [slice_eq_ok (Wire.ceilDiv_le_succ ..) (Wire.ceilDiv_succ_mul_le hi)]
      rfl

theorem ofPattern_eq_ok (pattern : Pattern) (ps : List PartitionIndex)
    (cs : List TaskIndex) :
    ofPattern pattern ps cs = .ok (Wire.ofPattern pattern ps cs) := by
  cases pattern with
  | allToAll => rfl
  | pointwise => exact pointwise_eq_ok ps cs

/-! ## Groups -/

/-- Records at positions that are in range are found. -/
theorem forM_reach {α : Type} {xs : Array α} {is : List Nat}
    (h : ∀ i ∈ is, i < xs.size) :
    is.forM (fun i => discard (reach xs[i]?)) = .ok ⟨⟩ := by
  rw [forM_eq_ok_iff]
  intro i hi
  rw [reach_array (h i hi)]
  rfl

theorem addGroup_eq_ok {t : Topology} {w : Wire}
    (hps : ∀ p ∈ w.partitions, p < t.partitions.size)
    (hcs : ∀ i ∈ w.consumers, i < t.tasks.size) (edge : JobEdge) :
    addGroup edge t w = .ok (Topology.addGroup edge t w) := by
  rw [addGroup, forM_reach hps, ok_bind, forM_reach hcs]
  rfl

theorem addGroups_eq_ok {t : Topology} {ws : List Wire}
    (hps : ∀ w ∈ ws, ∀ p ∈ w.partitions, p < t.partitions.size)
    (hcs : ∀ w ∈ ws, ∀ i ∈ w.consumers, i < t.tasks.size) (edge : JobEdge) :
    addGroups t edge ws = .ok (t.addGroups edge ws) := by
  have hfold := (foldlM_eq_ok (f := addGroup edge) (g := Topology.addGroup edge)
    (P := fun s : Topology => s.partitions.size = t.partitions.size ∧
      s.tasks.size = t.tasks.size) (l := ws) (fun w hw s hs => by
      obtain ⟨hp, hc⟩ := hs
      refine ⟨addGroup_eq_ok (hp ▸ hps w hw) (hc ▸ hcs w hw) edge, ?_, ?_⟩
      · rw [Topology.size_partitions_addGroup, hp]
      · rw [Topology.size_tasks_addGroup, hc]) ⟨rfl, rfl⟩).1
  rw [addGroups, hfold]
  rfl

/-! ## Inputs -/

section Inputs

variable {t : Topology} (h : t.LinksInRange)

include h

theorem partitionOf?_eq_ok (dataSet : DataSetId) {i : Nat}
    (hi : i < t.tasks.size) :
    partitionOf? t dataSet i = .ok (t.partitionOf? dataSet i) := by
  rw [partitionOf?, reach_array hi, ok_bind, findM?_eq_ok (g := fun p =>
    (t.partitions[p]?.map (·.id.dataSet)) = some dataSet)]
  · simp [Topology.partitionOf?, hi]
  · intro p hp
    have hlt := h.produced _ (Array.getElem_mem hi) p hp
    simp [hlt]

omit h in
/-- What is found at a task is produced by it. -/
theorem lt_of_partitionOf? (h : t.LinksInRange) {dataSet : DataSetId}
    {i p : Nat} (hp : t.partitionOf? dataSet i = some p) :
    p < t.partitions.size := by
  obtain ⟨task, htask, hfind⟩ := Option.bind_eq_some_iff.mp hp
  exact h.produced task (Array.mem_of_getElem? htask) p
    (List.mem_of_find?_eq_some hfind)

/-- All partitions of the producer are found, or the edge is refused. -/
theorem connectInput_eq_returned
    (hindex : ∀ (id : VertexId) (pos : Nat),
      t.operatorIndex[id]? = some pos → pos < t.operators.length)
    (htasks : ∀ o ∈ t.operators, ∀ i ∈ o.tasks, i < t.tasks.size)
    {consumers : List TaskIndex} (hcs : ∀ i ∈ consumers, i < t.tasks.size)
    (edge : JobEdge) :
    connectInput consumers t edge =
      returned (t.connectInput consumers edge) := by
  refine bind_eq_returned (operator_eq_returned hindex _) fun o ho => ?_
  obtain ⟨pos, -, hpos⟩ := exists_of_operator ho
  have hproduced := htasks o (List.mem_of_getElem? hpos)
  rw [mapM_eq_ok fun i hi => partitionOf?_eq_ok h edge.source
    (hproduced i hi), ok_bind, List.filterMap_map]
  dsimp only [Function.id_comp]
  split
  · rfl
  · rw [ofPattern_eq_ok]
    refine addGroups_eq_ok (fun w hw p hp => ?_) (fun w hw i hi => ?_) edge
    · obtain ⟨i, -, hfound⟩ := List.mem_filterMap.mp
        ((Topology.mem_of_mem_ofPattern hw).1 p hp)
      exact lt_of_partitionOf? h hfound
    · exact hcs i ((Topology.mem_of_mem_ofPattern hw).2 i hi)

end Inputs

/-! ## Operators -/

/-- What holds of the operators expanded so far, whatever their graph looks
like. -/
structure Expanded (g : JobGraph) (t : Topology) : Prop
    extends t.LinksInRange where
  graph : t.graph = g
  index : ∀ (id : VertexId) (pos : Nat),
    t.operatorIndex[id]? = some pos → pos < t.operators.length
  inputs : ∀ o ∈ t.operators, ∀ e ∈ o.inputs, e.producer ∈ t.operatorIndex
  /-- The tasks of the operators follow each other. -/
  tasks : t.operators.flatMap (·.tasks) = List.range t.tasks.size
  nonempty : ∀ o ∈ t.operators, o.tasks ≠ []

/-- The topology while the inputs of a new vertex are connected: its subtasks
are there, and its operator is still to come. -/
structure Hiring (t : Topology) (n : Nat) (s : Topology) : Prop
    extends s.LinksInRange where
  graph : s.graph = t.graph
  operators : s.operators = t.operators
  operatorIndex : s.operatorIndex = t.operatorIndex
  size : s.tasks.size = t.tasks.size + n

section Operators

variable {g : JobGraph} {t : Topology}

theorem Expanded.lt_of_mem_tasks (h : Expanded g t) {o : Operator}
    (ho : o ∈ t.operators) {i : Nat} (hi : i ∈ o.tasks) :
    i < t.tasks.size := by
  have hmem : i ∈ t.operators.flatMap (·.tasks) :=
    List.mem_flatMap.mpr ⟨o, ho, hi⟩
  rw [h.tasks] at hmem
  exact List.mem_range.mp hmem

theorem expanded_start (g : JobGraph) : Expanded g { graph := g } := by
  refine ⟨⟨?_, ?_, ?_, ?_, ?_, ?_, ?_, ?_, ?_, ?_, ?_⟩, rfl, ?_, ?_, ?_, ?_⟩ <;>
    simp

theorem mem_of_vertex {id : VertexId} {v : JobVertex}
    (h : g.vertex id = .ok v) : v ∈ g.vertices := by
  unfold JobGraph.vertex at h
  split at h
  · rename_i heq
    cases h
    obtain ⟨pos, -, hpos⟩ := Option.bind_eq_some_iff.mp heq
    exact List.mem_of_getElem? hpos
  · cases h

/-- The new subtasks refer to nothing yet but their partitions. -/
theorem hiring_addSubtasks (h : t.LinksInRange) (vertex : VertexId)
    (outputs : List JobEdge) (n : Nat) :
    Hiring t n
      ((List.range n).foldl (Topology.addSubtask vertex outputs) t) := by
  have hh := Topology.hired_addSubtasks t vertex outputs n
  refine ⟨?_, hh.graph, hh.operators, hh.operatorIndex, hh.size⟩
  exact List.foldlRecOn _ _ h fun s hs k _ => hs.addSubtask vertex outputs k

section Connect

variable {n : Nat} {s : Topology} (h : Expanded g t) (hs : Hiring t n s)
  {consumers : List TaskIndex} (hcs : ∀ i ∈ consumers, i < t.tasks.size + n)

include h hs hcs

theorem Hiring.connectInput_eq_returned (edge : JobEdge) :
    connectInput consumers s edge =
      returned (s.connectInput consumers edge) := by
  refine Checked.connectInput_eq_returned hs.toLinksInRange ?_ ?_ ?_ edge
  · rw [hs.operatorIndex, hs.operators]
    exact h.index
  · rw [hs.operators, hs.size]
    exact fun o ho i hi => Nat.lt_add_right n (h.lt_of_mem_tasks ho hi)
  · rwa [hs.size]

omit h in
/-- An edge that is connected comes from an operator. -/
theorem Hiring.connectInput {edge : JobEdge} {s' : Topology}
    (hok : s.connectInput consumers edge = .ok s') :
    Hiring t n s' ∧ edge.producer ∈ t.operatorIndex := by
  obtain ⟨o, ho, hrest⟩ := bind_eq_ok_iff.mp hok
  dsimp only at hrest
  split at hrest
  · cases hrest
  cases hrest
  obtain ⟨hgraph, hoperators, hindex, hsize⟩ :=
    Topology.operators_addGroups s edge (Wire.ofPattern edge.pattern
      (o.tasks.filterMap (s.partitionOf? edge.source)) consumers)
  refine ⟨⟨hs.addGroups ?_ ?_ edge, hgraph.trans hs.graph,
    hoperators.trans hs.operators, hindex.trans hs.operatorIndex,
    hsize.trans hs.size⟩, ?_⟩
  · intro w hw p hp
    obtain ⟨i, -, hfound⟩ := List.mem_filterMap.mp
      ((Topology.mem_of_mem_ofPattern hw).1 p hp)
    exact lt_of_partitionOf? hs.toLinksInRange hfound
  · intro w hw i hi
    rw [hs.size]
    exact hcs i ((Topology.mem_of_mem_ofPattern hw).2 i hi)
  · obtain ⟨pos, hpos, -⟩ := exists_of_operator ho
    rw [← hs.operatorIndex, Std.TreeMap.mem_iff_isSome_getElem?, hpos]
    rfl

end Connect

theorem lt_of_mem_newTasks {size n i : Nat}
    (hi : i ∈ (List.range n).map (size + ·)) : i < size + n := by
  obtain ⟨k, hk, rfl⟩ := List.mem_map.mp hi
  exact Nat.add_lt_add_left (List.mem_range.mp hk) size

/-- One more vertex is expanded, or it is refused. -/
theorem Expanded.addOperator_eq_returned (hg : g.IndexInRange)
    (h : Expanded g t) (id : VertexId) :
    addOperator t id = returned (t.addOperator id) := by
  refine bind_eq_returned (vertex_eq_returned (h.graph ▸ hg) id) fun v _ => ?_
  have hs := hiring_addSubtasks h.toLinksInRange v.id (t.graph.outputsOf id)
    v.parallelism
  have hcs : ∀ i ∈ (List.range v.parallelism).map (t.tasks.size + ·),
      i < t.tasks.size + v.parallelism := fun _ => lt_of_mem_newTasks
  dsimp only
  rw [addSubtasks_eq_ok, ok_bind]
  refine bind_eq_returned (foldlM_eq_returned
    (P := Hiring t v.parallelism)
    (fun edge _ s hs => hs.connectInput_eq_returned h hcs edge)
    (fun edge _ s hs s' hok => (hs.connectInput hcs hok).1) hs) fun s _ => rfl

/-- What holds of the operators holds when there is one more. -/
theorem Expanded.place (h : Expanded g t) {v : JobVertex} {s : Topology}
    (hs : Hiring t v.parallelism s) (hpos : 0 < v.parallelism)
    (hinputs : ∀ e ∈ v.inputs, e.producer ∈ t.operatorIndex) :
    Expanded g (s.place v
      ((List.range v.parallelism).map (t.tasks.size + ·))) := by
  set tasks := (List.range v.parallelism).map (t.tasks.size + ·) with htasks
  have hoperators : (s.place v tasks).operators =
      t.operators ++ [v.operator tasks] := by
    rw [Topology.place, hs.operators]
  have hindex : (s.place v tasks).operatorIndex =
      t.operatorIndex.insert v.id t.operators.length := by
    rw [Topology.place, hs.operatorIndex, hs.operators]
  have hkeep : ∀ {k : VertexId}, k ∈ t.operatorIndex →
      k ∈ t.operatorIndex.insert v.id t.operators.length := fun hk =>
    Std.TreeMap.mem_insert.mpr (.inr hk)
  refine ⟨⟨hs.taskIndex, hs.partitionIndex, hs.produced, hs.consumed,
    hs.producer, hs.consumerGroups, hs.partitions, hs.consumerGroup,
    hs.readers, hs.partitionGroup, hs.dataSetGroups⟩,
    hs.graph.trans h.graph, ?_, ?_, ?_, ?_⟩
  · rw [hoperators, hindex, List.length_append, List.length_singleton]
    exact lt_succ_of_insert h.index
  · rw [hoperators, hindex]
    intro o ho e he
    rcases List.mem_append.mp ho with ho | ho
    · exact hkeep (h.inputs o ho e he)
    · rw [List.mem_singleton.mp ho] at he
      exact hkeep (hinputs e he)
  · show _ = List.range s.tasks.size
    rw [hoperators, List.flatMap_append, List.flatMap_singleton, h.tasks,
      hs.size, List.range_add]
    rfl
  · rw [hoperators]
    intro o ho
    rcases List.mem_append.mp ho with ho | ho
    · exact h.nonempty o ho
    · rw [List.mem_singleton.mp ho]
      show tasks ≠ []
      simp [htasks, Nat.ne_of_gt hpos]

/-- One more vertex is expanded. -/
theorem Expanded.addOperator (hpos : ∀ v ∈ g.vertices, 0 < v.parallelism)
    (h : Expanded g t) {id : VertexId} {t' : Topology}
    (hok : t.addOperator id = .ok t') : Expanded g t' := by
  obtain ⟨v, hv, hrest⟩ := bind_eq_ok_iff.mp hok
  obtain ⟨s, hinputs, hret⟩ := bind_eq_ok_iff.mp hrest
  have hcs : ∀ i ∈ (List.range v.parallelism).map (t.tasks.size + ·),
      i < t.tasks.size + v.parallelism := fun _ => lt_of_mem_newTasks
  -- Every input connected so far has its producer among the operators.
  obtain ⟨hs, hproducers⟩ := foldlM_ok_induction
    (P := fun pre s => Hiring t v.parallelism s ∧
      ∀ e ∈ pre, e.producer ∈ t.operatorIndex)
    (fun pre edge post _ s s' hP hstep => by
      obtain ⟨hnext, hproducer⟩ := hP.1.connectInput hcs hstep
      refine ⟨hnext, fun e he => ?_⟩
      rcases List.mem_append.mp he with he | he
      · exact hP.2 e he
      · exact List.mem_singleton.mp he ▸ hproducer)
    ⟨hiring_addSubtasks h.toLinksInRange v.id (t.graph.outputsOf id)
      v.parallelism, by simp⟩ hinputs
  cases hret
  exact h.place hs (hpos v (mem_of_vertex (h.graph ▸ hv))) hproducers

end Operators

end Checked

end ControlPlane
