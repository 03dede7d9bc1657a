import Mathlib
import ControlPlane.Proofs.Topology.Joined

/-!
# Growing an operator

Growing appends subtasks one by one, puts them into the region of their
sibling and writes the new parallelism into the operator and the job graph.
A topology in which every vertex has its operator stays one. The job graph
never refuses the new parallelism, so a call either changes nothing or does
all of it.
-/

namespace ControlPlane

namespace Topology

variable {t : Topology}

/-! ## The subtasks of an operator -/

/-- The groups consumed by a task are those of the inputs of its vertex. -/
theorem Whole.exchanges_of_task (h : t.Whole) {i : Nat} {id : TaskId}
    (hi : t.taskIdAt i = some id) :
    (t.consumedBy i).map t.exchangeAt =
      ((t.operators.flatMap (·.inputs)).filter
        (·.target = id.vertex)).map fun e => some e.exchange :=
  h.wired.carrying.consumed i id hi

theorem Whole.sources_nodup (h : t.Whole) :
    ((t.operators.flatMap (·.inputs)).map (·.source)).Nodup :=
  (h.edges_perm.map (·.source)).nodup_iff.mpr h.graph.sources

/-- Further subtasks of an operator without pointwise edges keep the links
exact. -/
theorem Whole.wired_appendSubtasks (h : t.Whole) {o : Operator}
    (ho : o ∈ t.operators)
    (houts : ∀ e ∈ t.graph.outputsOf o.id, e.pattern = .allToAll) {i : Nat}
    {id : TaskId} (hi : t.taskIdAt i = some id) (hid : id.vertex = o.id)
    (pos n : Nat) :
    (((List.range n).map (o.parallelism + ·)).foldl (appendSubtask o.id pos
      (t.consumedBy i) (t.graph.outputsOf o.id)) t).Wired
        (t.operators.flatMap (·.inputs)) := by
  induction n with
  | zero => exact h.wired
  | succ n ih =>
    rw [List.range_succ, List.map_append, List.foldl_append, List.map_cons,
      List.map_nil, List.foldl_cons, List.foldl_nil]
    have hgrown := grown_appendSubtasks t o.id pos o.parallelism
      (t.consumedBy i) (t.graph.outputsOf o.id) n
    set t' := ((List.range n).map (o.parallelism + ·)).foldl
      (appendSubtask o.id pos (t.consumedBy i) (t.graph.outputsOf o.id)) t
    -- Appending leaves the job graph alone, so the outputs are still those of
    -- the graph that lacks the new subtasks.
    have hnext : (appendSubtask o.id pos (t.consumedBy i)
        (t'.graph.outputsOf o.id) t' (o.parallelism + n)).Wired
        (t.operators.flatMap (·.inputs)) := ih.appendSubtask
      (hgrown.graph ▸ h.graph) h.sources_nodup (by
        rw [hgrown.graph]
        intro e he
        exact ⟨h.edges_perm.mem_iff.mpr (JobGraph.mem_outputsOf.mp he).1,
          houts e he⟩)
      (by
        rw [funext hgrown.exchangeAt, h.exchanges_of_task hi, hid])
      (by
        intro j hj
        have happends : t.Appends o.id o.parallelism n t' := hgrown.taskIdAt
        rcases happends.taskIdAt_cases hj with hold | ⟨k, hk, -, heq⟩
        · exact absurd (h.staffed.subtask_lt ho hold rfl)
            (Nat.not_lt.mpr (Nat.le_add_right _ _))
        · simp only [TaskId.mk.injEq] at heq
          omega)
    rwa [hgrown.graph] at hnext

/-- New subtasks enter the groups of their sibling and of their outputs. -/
theorem Whole.joined_appendSubtasks (h : t.Whole) {o : Operator}
    (ho : o ∈ t.operators)
    (houts : ∀ e ∈ t.graph.outputsOf o.id, e.pattern = .allToAll) {i : Nat}
    {id : TaskId} (hi : t.taskIdAt i = some id) (hid : id.vertex = o.id)
    (pos n : Nat) :
    t.Joined o.parallelism (t.consumedBy i) (t.graph.outputsOf o.id) n
      (((List.range n).map (o.parallelism + ·)).foldl (appendSubtask o.id pos
        (t.consumedBy i) (t.graph.outputsOf o.id)) t) := by
  induction n with
  | zero => exact .refl t _ _ _
  | succ n ih =>
    rw [List.range_succ, List.map_append, List.foldl_append, List.map_cons,
      List.map_nil, List.foldl_cons, List.foldl_nil]
    have hgrown := grown_appendSubtasks t o.id pos o.parallelism
      (t.consumedBy i) (t.graph.outputsOf o.id) n
    have hwired := h.wired_appendSubtasks ho houts hi hid pos n
    set t' := ((List.range n).map (o.parallelism + ·)).foldl
      (appendSubtask o.id pos (t.consumedBy i) (t.graph.outputsOf o.id)) t
    have hexchanges := h.exchanges_of_task hi
    rw [← funext hgrown.exchangeAt] at hexchanges
    refine ih.trans (hwired.joined_appendSubtask ?_ ?_ ?_) hgrown.size
      hgrown.exchangeAt
    · intro e he
      exact hwired.hasGroup
        (h.edges_perm.mem_iff.mpr (JobGraph.mem_outputsOf.mp he).1)
        (houts e he)
    · exact lt_of_exchanges hexchanges
    · exact nodup_of_exchanges
        (h.sources_nodup.sublist (List.filter_sublist.map JobEdge.source))
        hexchanges

/-! ## The whole change -/

/-- What growing an operator beside one of its tasks amounts to. -/
structure Extended (t : Topology) (o : Operator) (sibling n : Nat)
    (t' : Topology) : Prop where
  whole : t'.Whole
  operators : t'.operators = t.operators.map fun x =>
    if x.id = o.id then x.extend t.tasks.size n else x
  size : t'.tasks.size = t.tasks.size + n
  taskIdAt : ∀ i : Nat, t'.taskIdAt i =
    if i < t.tasks.size then t.taskIdAt i
    else if i < t.tasks.size + n then
      some ⟨o.id, o.parallelism + (i - t.tasks.size)⟩
    else none
  consumedBy : ∀ i : Nat, t'.consumedBy i =
    if i < t.tasks.size then t.consumedBy i
    else if i < t.tasks.size + n then t.consumedBy sibling else []
  attemptAt : ∀ i : Nat, t'.attemptAt i =
    if i < t.tasks.size then t.attemptAt i else none
  exchangeAt : ∀ g, t'.exchangeAt g = t.exchangeAt g
  dataSetGroups : t'.dataSetGroups = t.dataSetGroups
  joined : t.Joined o.parallelism (t.consumedBy sibling)
    (t.graph.outputsOf o.id) n t'
  /-- Only operators whose edges are all fully wired grow. -/
  shuffled : ∀ e ∈ t.graph.edges, e.producer = o.id ∨ e.target = o.id →
    e.pattern = .allToAll
  positions : t'.graph.positions = t.graph.positions
  vertices : t'.graph.vertices = t.graph.vertices.map fun w =>
    if w.id = o.id then { w with parallelism := o.parallelism + n } else w
  regions : t'.regions =
    t.regions.modify (t.regionOf[sibling]?.getD 0) fun r =>
      { r with
        tasks := ascending (r.tasks ++
          (List.range n).map (t.tasks.size + ·)) }
  regionOf : t'.regionOf = ((List.range n).map (t.tasks.size + ·)).foldl
    (fun r _ => r.push (t.regionOf[sibling]?.getD 0)) t.regionOf

/-! ## The operators -/

/-- Operators, vertices and tasks once an operator has got new subtasks. -/
structure Restaffed (t : Topology) (o : Operator) (n : Nat) (t' : Topology) :
    Prop where
  operatorIndex : t'.operatorIndex = t.operatorIndex
  operators : t'.operators = t.operators.map fun x =>
    if x.id = o.id then x.extend t.tasks.size n else x
  vertices : t'.graph.vertices = t.graph.vertices.map fun w =>
    if w.id = o.id then { w with parallelism := o.parallelism + n } else w
  appends : t.Appends o.id o.parallelism n t'

theorem id_extendIf (x : Operator) (id : VertexId) (first n : Nat) :
    (if x.id = id then x.extend first n else x).id = x.id := by
  split <;> rfl

theorem inputs_extendIf (x : Operator) (id : VertexId) (first n : Nat) :
    (if x.id = id then x.extend first n else x).inputs = x.inputs := by
  split <;> rfl

namespace Restaffed

variable {t' : Topology} {o : Operator} {n : Nat} (hr : t.Restaffed o n t')

include hr

theorem map_id_operators :
    t'.operators.map (·.id) = t.operators.map (·.id) := by
  simp only [hr.operators, List.map_map, Function.comp_def, id_extendIf]

theorem map_id_vertices :
    t'.graph.vertices.map (·.id) = t.graph.vertices.map (·.id) := by
  rw [hr.vertices, List.map_map]
  apply List.map_congr_left
  intro w _
  simp only [Function.comp_apply]
  split <;> rfl

theorem flatMap_inputs :
    t'.operators.flatMap (·.inputs) = t.operators.flatMap (·.inputs) := by
  simp only [hr.operators, List.flatMap_map, inputs_extendIf]

/-- Every operator has been one before. -/
theorem exists_operator {x' : Operator} (hx' : x' ∈ t'.operators) :
    ∃ x ∈ t.operators,
      x' = (if x.id = o.id then x.extend t.tasks.size n else x) ∧
      x'.id = x.id ∧ x'.inputs = x.inputs := by
  rw [hr.operators] at hx'
  obtain ⟨x, hx, rfl⟩ := List.mem_map.mp hx'
  exact ⟨x, hx, rfl, id_extendIf .., inputs_extendIf ..⟩

/-- The operators are those of the graph with the new parallelism. -/
theorem vertex (hs : t.Staffed) (ho : o ∈ t.operators) {x' : Operator}
    (hx' : x' ∈ t'.operators) :
    ∃ v ∈ t'.graph.vertices, x' = v.operator x'.tasks := by
  obtain ⟨x, hx, rfl, -⟩ := hr.exists_operator hx'
  obtain ⟨v, hv, hxv⟩ := hs.vertex x hx
  have hid : x.id = v.id := congrArg Operator.id hxv
  rw [hr.vertices]
  refine ⟨_, List.mem_map_of_mem hv, ?_⟩
  by_cases hxo : x.id = o.id
  · have hsame := hs.operator_inj hx ho hxo
    subst hsame
    rw [if_pos rfl, if_pos hid.symm, hxv]
    rfl
  · rw [if_neg hxo, if_neg (hid ▸ hxo)]
    exact hxv

/-- The new subtasks follow the others of their operator. -/
theorem tasks (hs : t.Staffed) (ho : o ∈ t.operators) {x' : Operator}
    (hx' : x' ∈ t'.operators) :
    x'.tasks.map t'.taskIdAt =
      (List.range x'.parallelism).map fun k => some ⟨x'.id, k⟩ := by
  obtain ⟨x, hx, rfl, -⟩ := hr.exists_operator hx'
  have hold := hr.appends.map_taskIdAt_old hs hx
  by_cases hxo : x.id = o.id
  · have hsame := hs.operator_inj hx ho hxo
    subst hsame
    rw [if_pos rfl]
    show (x.tasks ++ _).map t'.taskIdAt =
      (List.range (x.parallelism + n)).map _
    rw [List.map_append, hr.appends.map_taskIdAt_new, hold, hs.tasks x hx,
      List.range_add, List.map_append, List.map_map]
    rfl
  · rw [if_neg hxo, hold]
    exact hs.tasks x hx

theorem complete (hs : t.Staffed) {x' : Operator} (hx' : x' ∈ t'.operators)
    {i : Nat} {id : TaskId} (hi : t'.taskIdAt i = some id)
    (hid : id.vertex = x'.id) : i ∈ x'.tasks := by
  obtain ⟨x, hx, rfl, hxid, -⟩ := hr.exists_operator hx'
  rw [hxid] at hid
  rcases hr.appends.taskIdAt_cases hi with hold | ⟨k, hk, rfl, rfl⟩
  · have hmem := hs.complete x hx i id hold hid
    split
    · exact List.mem_append_left _ hmem
    · exact hmem
  · rw [if_pos hid.symm]
    exact List.mem_append_right _
      (List.mem_map.mpr ⟨k, List.mem_range.mpr hk, rfl⟩)

theorem producer (hs : t.Staffed) {q : Nat} {x' : Operator}
    (hq : t'.operators[q]? = some x') {e : JobEdge} (he : e ∈ x'.inputs) :
    ∃ p < q, ∃ y, t'.operators[p]? = some y ∧ y.id = e.producer := by
  rw [hr.operators, List.getElem?_map] at hq
  obtain ⟨x, hx, rfl⟩ := Option.map_eq_some_iff.mp hq
  rw [inputs_extendIf] at he
  obtain ⟨p, hp, y, hy, hyid⟩ := hs.producer q x hx e he
  refine ⟨p, hp, _, ?_, (id_extendIf y o.id t.tasks.size n).trans hyid⟩
  rw [hr.operators, List.getElem?_map, hy, Option.map_some]

/-- The operators with the new subtasks staff the graph with the new
parallelism. -/
theorem staffed (hs : t.Staffed) (ho : o ∈ t.operators) : t'.Staffed where
  operatorIndex := by
    rw [hr.operatorIndex]
    intro k i
    rw [hs.operatorIndex k i]
    simp only [hr.operators, List.getElem?_map, Option.map_map,
      Function.comp_def, id_extendIf]
  vertex _ hx' := hr.vertex hs ho hx'
  tasks _ hx' := hr.tasks hs ho hx'
  complete _ hx' _ _ hi hid := hr.complete hs hx' hi hid
  producer _ _ hq _ he := hr.producer hs hq he

theorem parallelism (h : t.Whole) (ho : o ∈ t.operators) :
    ∀ w ∈ t'.graph.vertices, 0 < w.parallelism := by
  rw [hr.vertices]
  intro w' hw'
  obtain ⟨w, hw, rfl⟩ := List.mem_map.mp hw'
  split
  · exact Nat.add_pos_left (h.parallelism_pos ho) n
  · exact h.parallelism w hw

theorem owned (h : t.Whole) (ho : o ∈ t.operators) {i : Nat} {id : TaskId}
    (hi : t'.taskIdAt i = some id) :
    ∃ x ∈ t'.operators, x.id = id.vertex := by
  have hold : ∃ x ∈ t.operators, x.id = id.vertex := by
    rcases hr.appends.taskIdAt_cases hi with hold | ⟨k, -, -, rfl⟩
    · exact h.owned i id hold
    · exact ⟨o, ho, rfl⟩
  obtain ⟨x, hx, hxid⟩ := hold
  rw [hr.operators]
  exact ⟨_, List.mem_map_of_mem hx, (id_extendIf ..).trans hxid⟩

/-- Groups stay laid out along the edges when those of the operator are fully
wired. -/
theorem laid (h : t.Whole) (ho : o ∈ t.operators) {i : Nat}
    (hi : i ∈ o.tasks)
    (hj : t.Joined o.parallelism (t.consumedBy i) (t.graph.outputsOf o.id) n
      t') (hgroups : t'.dataSetGroups = t.dataSetGroups)
    (hshuffled : ∀ e ∈ t.graph.edges, e.producer = o.id ∨ e.target = o.id →
      e.pattern = .allToAll) {x' y' : Operator} {e : JobEdge}
    (hx' : x' ∈ t'.operators) (he : e ∈ x'.inputs) (hy' : y' ∈ t'.operators)
    (hid : y'.id = e.producer) : t'.LaidAlong e y'.tasks x'.tasks := by
  obtain ⟨x, hx, rfl, -, hinputs⟩ := hr.exists_operator hx'
  obtain ⟨y, hy, rfl, hyid, -⟩ := hr.exists_operator hy'
  rw [hinputs] at he
  have hedge := (h.edge_of_mem (List.mem_flatMap.mpr ⟨x, hx, he⟩)).1
  exact h.laid_joined ho hi hj hgroups (hshuffled e hedge) hx he hy
    (hyid.symm.trans hid)

end Restaffed

section Extend

variable {o : Operator} {sibling n pos : Nat} {id : TaskId}

/-- What is known of a sibling that was found. -/
theorem Whole.of_sibling (h : t.Whole) {s : Sibling}
    (hs : t.sibling id = .ok s) :
    t.taskIdAt s.index = some id ∧ t.consumedBy s.index = s.task.consumed ∧
      t.operatorIndex[id.vertex]? = some s.pos ∧
      s.operator ∈ t.operators ∧ s.operator.id = id.vertex := by
  obtain ⟨index, hindex, hs⟩ := bind_eq_ok_iff.mp hs
  obtain ⟨task, htask, hs⟩ := bind_eq_ok_iff.mp hs
  obtain ⟨pos, hpos, hs⟩ := bind_eq_ok_iff.mp hs
  obtain ⟨operator, hoperator, hs⟩ := bind_eq_ok_iff.mp hs
  cases hs
  have hid := h.wired.indexed.taskAt_eq_ok.mp hindex
  have hget := (h.wired.indexed.task_eq_ok hid).mp htask
  exact ⟨hid, by simp [Topology.consumedBy, hget],
    operatorAt_eq_ok.mp hpos, h.staffed.operator_eq_ok.mp hoperator⟩

theorem pattern_of_checkGrowth {outs : List JobEdge}
    (hok : checkGrowth o outs n = .ok ()) :
    ∀ e ∈ o.inputs ++ outs, e.pattern = .allToAll := by
  intro e he
  unfold checkGrowth at hok
  split at hok
  · cases hok
  · rename_i hfind
    have hnone := List.find?_eq_none.mp hfind e he
    simpa using hnone

/-- An operator that may grow has only fully wired edges. -/
theorem Whole.shuffled_of_pattern (h : t.Whole) (ho : o ∈ t.operators)
    (hpattern : ∀ e ∈ o.inputs ++ t.graph.outputsOf o.id,
      e.pattern = .allToAll) :
    ∀ e ∈ t.graph.edges, e.producer = o.id ∨ e.target = o.id →
      e.pattern = .allToAll := by
  rintro e he (hproducer | htarget)
  · exact hpattern e (List.mem_append_right _
      (JobGraph.mem_outputsOf.mpr ⟨he, hproducer⟩))
  · obtain ⟨x, hx, hxid, hinput⟩ := h.exists_target he
    rw [h.staffed.operator_inj hx ho (hxid.trans htarget)] at hinput
    exact hpattern e (List.mem_append_left _ hinput)

/-- The operators after growing, once the job graph has the new
parallelism. -/
theorem Whole.restaffed_grow (h : t.Whole) {s : Sibling}
    (ho : s.operator ∈ t.operators)
    (hpos : t.operatorIndex[s.operator.id]? = some s.pos)
    (outs : List JobEdge) {g : JobGraph}
    (hvertices : g.vertices = t.graph.vertices.map fun w =>
      if w.id = s.operator.id then
        { w with parallelism := s.operator.parallelism + n }
      else w) :
    t.Restaffed s.operator n { t.grow s outs n with graph := g } := by
  have hgrown := grown_appendSubtasks t s.operator.id s.pos
    s.operator.parallelism s.task.consumed outs n
  refine ⟨hgrown.operatorIndex, ?_, hvertices, hgrown.taskIdAt⟩
  show List.modify _ s.pos _ = _
  rw [joinRegion, hgrown.operators, List.modify_modify_eq,
    h.staffed.operatorIndex.modify_eq_map hpos]
  apply List.map_congr_left
  intro x hx
  by_cases hxo : x.id = s.operator.id
  · rw [if_pos hxo, if_pos hxo, h.staffed.operator_inj hx ho hxo]
    rfl
  · rw [if_neg hxo, if_neg hxo]

section Grow

variable {s : Sibling} (h : t.Whole) (ho : s.operator ∈ t.operators)
  (houts : ∀ e ∈ t.graph.outputsOf s.operator.id, e.pattern = .allToAll)
  (hid : t.taskIdAt s.index = some id) (hoid : id.vertex = s.operator.id)
  (hconsumed : t.consumedBy s.index = s.task.consumed)

include h ho houts hid hoid hconsumed

/-- The new subtasks are joined to the groups of their sibling. The region, the
parallelism and the job graph make no difference to that. -/
theorem Whole.joined_grow (n : Nat) (g : JobGraph) :
    t.Joined s.operator.parallelism (t.consumedBy s.index)
      (t.graph.outputsOf s.operator.id) n
      { t.grow s (t.graph.outputsOf s.operator.id) n with graph := g } := by
  have hjoined := h.joined_appendSubtasks ho houts hid hoid s.pos n
  rw [hconsumed] at hjoined ⊢
  exact ⟨hjoined.size_le, hjoined.outputAt, hjoined.tasksReading,
    hjoined.partitionsIn⟩

/-- All tasks are wired along the edges: the region and the parallelism are no
links, and the job graph keeps its edges. -/
theorem Whole.wired_grow (n : Nat) {g : JobGraph}
    (hedges : g.edges = t.graph.edges) :
    Wired { t.grow s (t.graph.outputsOf s.operator.id) n with graph := g }
      (t.operators.flatMap (·.inputs)) := by
  have hgrown := grown_appendSubtasks t s.operator.id s.pos
    s.operator.parallelism s.task.consumed
    (t.graph.outputsOf s.operator.id) n
  have hwired := h.wired_appendSubtasks ho houts hid hoid s.pos n
  rw [hconsumed] at hwired
  set t1 := ((List.range n).map (s.operator.parallelism + ·)).foldl
    (appendSubtask s.operator.id s.pos s.task.consumed
      (t.graph.outputsOf s.operator.id)) t
  have hlinks : SameLinks t1
      { t.grow s (t.graph.outputsOf s.operator.id) n with graph := g } :=
    ⟨rfl, rfl, rfl, rfl, rfl, rfl, rfl, rfl, rfl, rfl⟩
  have houtputsOf : g.outputsOf = t1.graph.outputsOf := by
    funext id
    rw [hgrown.graph]
    exact congrArg (List.filter _) hedges
  refine hwired.congr hlinks fun i _ _ => ?_
  rw [outputs, outputs, hlinks.taskIdAt, houtputsOf]

end Grow

/-- Growing beside a sibling, with the job graph learning of it. -/
theorem Whole.extended_grow (h : t.Whole) {s : Sibling}
    (hs : t.sibling id = .ok s)
    (hpattern : ∀ e ∈ s.operator.inputs ++ t.graph.outputsOf id.vertex,
      e.pattern = .allToAll)
    (n : Nat) :
    ∃ g, (t.grow s (t.graph.outputsOf id.vertex) n).graph.setParallelism
        id.vertex (s.operator.parallelism + n) = .ok g ∧
      Extended t s.operator s.index n
        { t.grow s (t.graph.outputsOf id.vertex) n with graph := g } := by
  obtain ⟨hid, hconsumed, hpos, ho, hoid⟩ := h.of_sibling hs
  obtain ⟨v, hv, hvid, -⟩ := h.staffed.inputs_eq ho
  rw [← hoid] at hpattern hpos ⊢
  have houts : ∀ e ∈ t.graph.outputsOf s.operator.id,
      e.pattern = .allToAll := fun e he =>
    hpattern e (List.mem_append_right _ he)
  have hshuffled := h.shuffled_of_pattern ho hpattern
  have hindex : s.index ∈ s.operator.tasks :=
    (h.staffed.mem_tasks ho).mpr ⟨id, hid, hoid.symm⟩
  have hgrown := grown_appendSubtasks t s.operator.id s.pos
    s.operator.parallelism s.task.consumed
    (t.graph.outputsOf s.operator.id) n
  obtain ⟨g, hset, hg, hedges, hpositions, hvertices⟩ :=
    h.graph.setParallelism hv (s.operator.parallelism + n)
  rw [hvid] at hset hvertices
  have hr := h.restaffed_grow ho hpos (t.graph.outputsOf s.operator.id)
    hvertices
  have hjoined := h.joined_grow ho houts hid hoid.symm hconsumed n g
  have hwired := h.wired_grow ho houts hid hoid.symm hconsumed n hedges
  rw [← hr.flatMap_inputs] at hwired
  refine ⟨g, hgrown.graph.symm ▸ hset, ?_⟩
  set t' : Topology :=
    { t.grow s (t.graph.outputsOf s.operator.id) n with graph := g }
  have hsound : t'.Sound :=
    { graph := hg
      parallelism := hr.parallelism h ho
      wired := hwired
      staffed := hr.staffed h.staffed ho
      owned := fun _ _ => hr.owned h ho
      laid := fun _ hx _ he _ hy => hr.laid h ho hindex hjoined
        hgrown.dataSetGroups hshuffled hx he hy }
  have hids : (t'.operators.map (·.id)).Perm
      (t'.graph.vertices.map (·.id)) := by
    rw [hr.map_id_operators, hr.map_id_vertices]
    exact h.ids
  exact
    { whole := ⟨hsound, hids⟩
      operators := hr.operators
      size := hgrown.size
      taskIdAt := hr.appends
      consumedBy := hconsumed.symm ▸ hgrown.consumedBy
      attemptAt := hgrown.attemptAt
      exchangeAt := hgrown.exchangeAt
      dataSetGroups := hgrown.dataSetGroups
      joined := hjoined
      shuffled := hshuffled
      positions := hpositions
      vertices := hr.vertices
      regions := by
        rw [← hgrown.regions]
        rfl
      regionOf := by
        show List.foldl _ (Topology.regionOf _) _ = _
        rw [hgrown.regionOf] }

/-- A call either changes nothing or grows the operator of the sibling. -/
theorem Whole.extendRegion_cases (h : t.Whole) (id : TaskId) (n : Nat) :
    ((t.extendRegion id n).1 = t ∧
      ∀ ids, (t.extendRegion id n).2 = .ok ids → ids = []) ∨
    ∃ (o : Operator) (i : Nat), o ∈ t.operators ∧ o.id = id.vertex ∧
      t.taskIdAt i = some id ∧
      (t.extendRegion id n).2 = .ok ((List.range n).map fun k =>
        ⟨o.id, o.parallelism + k⟩) ∧
      Extended t o i n (t.extendRegion id n).1 := by
  unfold Topology.extendRegion
  cases hs : t.sibling id with
  | error e => exact .inl ⟨rfl, by simp⟩
  | ok s =>
  dsimp only
  cases hcheck : checkGrowth s.operator (t.graph.outputsOf id.vertex) n with
  | error e => exact .inl ⟨rfl, by simp⟩
  | ok _ =>
  dsimp only
  by_cases hn : n = 0
  · rw [if_pos hn]
    exact .inl ⟨rfl, by simp⟩
  · obtain ⟨hid, -, -, ho, hoid⟩ := h.of_sibling hs
    obtain ⟨g, hset, hextended⟩ :=
      h.extended_grow hs (pattern_of_checkGrowth hcheck) n
    rw [if_neg hn, hset]
    exact .inr ⟨s.operator, s.index, ho, hoid, hid, rfl, hextended⟩

end Extend

end Topology

end ControlPlane
