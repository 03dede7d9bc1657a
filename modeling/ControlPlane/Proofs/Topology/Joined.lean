import Mathlib
import ControlPlane.Proofs.Topology.Extension

/-!
# What new subtasks add to groups

New subtasks enter the groups of their sibling behind the readers there, and
their partitions enter the groups of their datasets behind the partitions
there. Nothing else changes in any group, so the order of subtasks is kept.
-/

namespace ControlPlane

/-- The operator with further tasks behind the others. -/
def Operator.extend (o : Operator) (first n : Nat) : Operator :=
  { o with
    tasks := o.tasks ++ (List.range n).map (first + ·)
    parallelism := o.parallelism + n }

namespace Topology

/-- The partitions that a subtask produces for what a group reads. -/
def outputsInto (t : Topology) (g : GroupIndex) (outs : List JobEdge)
    (number : Nat) (producer : TaskIndex) : List Output :=
  (outs.filter fun e => some e.source = (t.exchangeAt g).map (·.dataSet)).map
    (·.output number producer)

/-- What subtasks that are appended behind the others add to groups. -/
structure Joined (t : Topology) (first : Nat) (consumed : List GroupIndex)
    (outs : List JobEdge) (n : Nat) (t' : Topology) : Prop where
  size_le : t.partitions.size ≤ t'.partitions.size
  outputAt : ∀ p < t.partitions.size, t'.outputAt p = t.outputAt p
  tasksReading : ∀ g, t'.tasksReading g = t.tasksReading g ++
    if g ∈ consumed then (List.range n).map (t.tasks.size + ·) else []
  partitionsIn : ∀ g, ∃ added, t'.partitionsIn g = t.partitionsIn g ++ added ∧
    added.map t'.outputAt = (List.range n).flatMap fun k =>
      (t.outputsInto g outs (first + k) (t.tasks.size + k)).map some

/-! ## One subtask -/

section Produce

variable {t : Topology} {i k : Nat} {outs : List JobEdge}

/-- The dataset of an edge is read through one group. -/
def HasGroup (t : Topology) (e : JobEdge) : Prop :=
  ∃ g : Nat, t.dataSetGroups.getD e.source [] = [g] ∧
    t.consumerGroupAt g = some g ∧
    ∀ g', (t.exchangeAt g').map (·.dataSet) = some e.source ↔ g' = g

theorem Wired.hasGroup {done : List JobEdge} (h : t.Wired done)
    {e : JobEdge} (he : e ∈ done) (hpattern : e.pattern = .allToAll) :
    t.HasGroup e := by
  obtain ⟨g, hgs, hgroup⟩ := h.carrying.exists_group h.grouped he hpattern
  refine ⟨g, hgs, hgroup, fun g' => ?_⟩
  rw [← h.carrying.dataSetGroups, hgs, List.mem_singleton]

theorem HasGroup.produce {e e' : JobEdge} (h : t.HasGroup e)
    (h' : t.HasGroup e') : (t.produce i e k).HasGroup e' := by
  obtain ⟨g, hgs, hgroup, -⟩ := h
  rw [HasGroup, dataSetGroups_produce hgs hgroup,
    funext (consumerGroupAt_produce hgs hgroup),
    funext (exchangeAt_produce hgs hgroup)]
  exact h'

/-- What the partitions of a subtask add, one for each output. -/
theorem joined_foldl_produce (houts : ∀ e ∈ outs, t.HasGroup e) :
    let t' := outs.foldl (fun t e => t.produce i e k) t
    t.partitions.size ≤ t'.partitions.size ∧
      (∀ p < t.partitions.size, t'.outputAt p = t.outputAt p) ∧
      t'.consumerGroups = t.consumerGroups ∧
      ∀ g, ∃ added, t'.partitionsIn g = t.partitionsIn g ++ added ∧
        added.map t'.outputAt = (t.outputsInto g outs k i).map some := by
  induction outs generalizing t with
  | nil => exact ⟨Nat.le_refl _, fun _ _ => rfl, rfl, fun g => ⟨[], by simp, rfl⟩⟩
  | cons e outs ih =>
    obtain ⟨he, houts⟩ := List.forall_mem_cons.mp houts
    obtain ⟨hsize, houtput, hgroups, hin⟩ :=
      ih fun e' he' => he.produce (i := i) (k := k) (houts e' he')
    obtain ⟨ge, hgs, hgroup, hmem⟩ := he
    have hstep : (t.produce i e k).partitions.size = t.partitions.size + 1 := by
      rw [produce_eq hgs hgroup]
      simp
    rw [List.foldl_cons]
    set t1 := t.produce i e k with ht1
    set t' := outs.foldl (fun t e => t.produce i e k) t1
    -- The partition of the first output is the first new one, and later
    -- outputs do not change it.
    have hnew : t'.outputAt t.partitions.size = some (e.output k i) := by
      rw [houtput _ (by omega), ht1, outputAt_produce hgs hgroup,
        outputAt_addPartition, if_pos rfl]
    refine ⟨by omega, ?_, ?_, ?_⟩
    · intro p hp
      rw [houtput p (by omega), ht1, outputAt_produce hgs hgroup,
        outputAt_addPartition, if_neg (Nat.ne_of_lt hp)]
    · rw [hgroups, ht1, consumerGroups_produce hgs hgroup]
    · intro g
      obtain ⟨added, hadded, houtputs⟩ := hin g
      rw [ht1, partitionsIn_produce hgs hgroup] at hadded
      rw [outputsInto, ht1, exchangeAt_produce hgs hgroup] at houtputs
      by_cases hg : g = ge
      · have hsource := (hmem g).mpr hg
        refine ⟨t.partitions.size :: added, ?_, ?_⟩
        · rw [hadded, if_pos hg, hg]
          simp
        · rw [List.map_cons, houtputs, hnew, outputsInto, hsource]
          simp
      · have hsource := (hmem g).not.mpr hg
        refine ⟨added, by rw [hadded, if_neg hg], ?_⟩
        rw [houtputs, outputsInto, List.filter_cons_of_neg]
        simpa [eq_comm] using hsource

end Produce

/-- A subtask joins. -/
theorem Wired.joined_appendSubtask {t : Topology} {done : List JobEdge}
    (h : t.Wired done) {vertex : VertexId} {pos k : Nat}
    {consumed : List GroupIndex} {outs : List JobEdge}
    (houts : ∀ e ∈ outs, t.HasGroup e)
    (hlt : ∀ g ∈ consumed, g < t.groups.size) (hnodup : consumed.Nodup) :
    t.Joined k consumed outs 1
      (Topology.appendSubtask vertex pos consumed outs t k) := by
  set s := (t.assign pos t.tasks.size).enlist ⟨vertex, k⟩ consumed with hs
  obtain ⟨hsize, houtput, hgroups, hin⟩ :=
    joined_foldl_produce (t := s) (i := t.tasks.size) (k := k) houts
  have hreading : ∀ g, s.tasksReading g = _ := tasksReading_enlist
    (t := t.assign pos t.tasks.size)
    ⟨h.grouped.size, h.grouped.consumerGroup, h.grouped.partitionGroup,
      h.grouped.mem_partitionsIn, h.grouped.mem_tasksReading,
      h.grouped.nodup_partitionsIn, h.grouped.nodup_tasksReading⟩ hlt hnodup
  rw [appendSubtask_eq]
  refine ⟨hsize, houtput, ?_, ?_⟩
  · intro g
    rw [tasksReading, hgroups]
    show s.tasksReading g = _
    rw [hs, hreading g]
    show (if g ∈ consumed then t.tasksReading g ++ [t.tasks.size]
      else t.tasksReading g) = _
    split <;> simp
  · intro g
    obtain ⟨added, hadded, houtputs⟩ := hin g
    refine ⟨added, hadded, houtputs.trans ?_⟩
    show (t.outputsInto g outs k t.tasks.size).map some = _
    simp

/-! ## Several subtasks -/

/-- Subtasks that join one after the other. -/
theorem Joined.trans {t t1 t2 : Topology} {first n m : Nat}
    {consumed : List GroupIndex} {outs : List JobEdge}
    (h : t.Joined first consumed outs n t1)
    (h' : t1.Joined (first + n) consumed outs m t2)
    (hsize : t1.tasks.size = t.tasks.size + n)
    (hexchange : ∀ g, t1.exchangeAt g = t.exchangeAt g) :
    t.Joined first consumed outs (n + m) t2 where
  size_le := h.size_le.trans h'.size_le
  outputAt := by
    intro p hp
    rw [h'.outputAt p (Nat.lt_of_lt_of_le hp h.size_le), h.outputAt p hp]
  tasksReading := by
    intro g
    rw [h'.tasksReading, h.tasksReading, hsize, List.range_add]
    split
    · simp [Nat.add_assoc, Function.comp_def]
    · simp
  partitionsIn := by
    intro g
    obtain ⟨added, hadded, houtputs⟩ := h.partitionsIn g
    obtain ⟨added', hadded', houtputs'⟩ := h'.partitionsIn g
    refine ⟨added ++ added', by rw [hadded', hadded, List.append_assoc], ?_⟩
    -- What was added first is left alone by what is added later.
    have hold : added.map t2.outputAt = added.map t1.outputAt := by
      apply List.map_congr_left
      intro p hp
      have hmem := List.mem_map_of_mem (f := t1.outputAt) hp
      rw [houtputs] at hmem
      obtain ⟨k, -, hk⟩ := List.mem_flatMap.mp hmem
      obtain ⟨x, -, hx⟩ := List.mem_map.mp hk
      exact h'.outputAt p (lt_of_outputAt hx.symm)
    rw [List.map_append, hold, houtputs, houtputs', List.range_add,
      List.flatMap_append, List.flatMap_map]
    simp only [outputsInto, hexchange, hsize, Nat.add_assoc]

theorem Joined.refl (t : Topology) (first : Nat) (consumed : List GroupIndex)
    (outs : List JobEdge) : t.Joined first consumed outs 0 t where
  size_le := Nat.le_refl _
  outputAt _ _ := rfl
  tasksReading := by simp
  partitionsIn _ := ⟨[], by simp, rfl⟩

/-! ## Edges stay laid -/

/-- Of the outputs of a vertex, only its edge of a dataset is one into a
group of that dataset. -/
theorem Sound.outputsInto_eq {t : Topology} (h : t.Sound) {e : JobEdge}
    (he : e ∈ t.operators.flatMap (·.inputs)) {g : Nat}
    (hg : g ∈ t.dataSetGroups.getD e.source []) (id : VertexId)
    (k : Nat) (i : TaskIndex) :
    t.outputsInto g (t.graph.outputsOf id) k i =
      if e.producer = id then [e.output k i] else [] := by
  have hedge : e ∈ t.graph.edges := (h.edge_of_mem he).1
  rw [outputsInto, (h.wired.carrying.dataSetGroups _ _).mp hg]
  have hsame : ∀ e' ∈ t.graph.outputsOf id, e'.source = e.source → e' = e :=
    fun e' he' heq =>
      h.graph.edge_inj (JobGraph.mem_outputsOf.mp he').1 hedge heq
  split
  · rename_i hid
    have hmem : e ∈ t.graph.outputsOf id :=
      JobGraph.mem_outputsOf.mpr ⟨hedge, hid⟩
    -- No two edges share a dataset, so the filter keeps one edge.
    have hone : ((t.graph.outputsOf id).filter
        (·.source = e.source)).length = 1 := by
      rw [← List.countP_eq_length_filter]
      exact countP_key_eq_one (f := JobEdge.source)
        (h.graph.sources.sublist (List.filter_sublist.map _)) hmem
    obtain ⟨e', he'⟩ := List.length_eq_one_iff.mp hone
    have hmem' : e ∈ [e'] := by
      rw [← he']
      exact List.mem_filter.mpr ⟨hmem, by simp⟩
    have hee : e = e' := List.mem_singleton.mp hmem'
    simp only [Option.some.injEq]
    rw [he', hee, List.map_singleton]
  · rename_i hid
    rw [List.filter_eq_nil_iff.mpr, List.map_nil]
    intro e' he' heq
    have hsource : e'.source = e.source := by simpa using heq
    have hproducer := (JobGraph.mem_outputsOf.mp he').2
    exact hid (hsame e' he' hsource ▸ hproducer)

/-- The tasks of an operator when one of the operators has grown. -/
theorem tasks_extend (x o : Operator) (first n : Nat) :
    (if x.id = o.id then x.extend first n else x).tasks = x.tasks ++
      if x.id = o.id then (List.range n).map (first + ·) else [] := by
  split
  · rfl
  · rw [List.append_nil]

section Stay

variable {t t' : Topology} {o x y : Operator} {e : JobEdge} {i n : Nat}

/-- Subtasks only read groups of edges that lead to their vertex. -/
theorem Sound.target_of_mem_consumedBy (h : t.Sound) (ho : o ∈ t.operators)
    (hi : i ∈ o.tasks) (he : e ∈ t.operators.flatMap (·.inputs)) {g : Nat}
    (hg : g ∈ t.dataSetGroups.getD e.source [])
    (hgi : g ∈ t.consumedBy i) : e.target = o.id := by
  obtain ⟨id, hid, hv⟩ := (h.staffed.mem_tasks ho).mp hi
  obtain ⟨e', he', htarget, hexchange⟩ :=
    h.wired.carrying.exchange_of_mem hid hgi
  have hdata := (h.wired.carrying.dataSetGroups _ _).mp hg
  rw [hexchange] at hdata
  have hsame := h.graph.edge_inj (h.edge_of_mem he').1 (h.edge_of_mem he).1
    (Option.some.inj hdata)
  exact hsame ▸ htarget.trans hv

/-- New subtasks leave the edges of other vertices alone. -/
theorem Sound.laid_apart (h : t.Sound) (ho : o ∈ t.operators)
    (hi : i ∈ o.tasks)
    (hj : t.Joined o.parallelism (t.consumedBy i) (t.graph.outputsOf o.id) n
      t') (hgroups : t'.dataSetGroups = t.dataSetGroups)
    (he : e ∈ t.operators.flatMap (·.inputs)) (hproducer : e.producer ≠ o.id)
    (htarget : e.target ≠ o.id) {ys xs : List TaskIndex}
    (hlaid : t.LaidAlong e ys xs) : t'.LaidAlong e ys xs := by
  refine hlaid.congr (by rw [hgroups]) hj.outputAt fun g hg => ?_
  obtain ⟨added, hadded, houtputs⟩ := hj.partitionsIn g
  have hnone : added = [] := by
    simp only [h.outputsInto_eq he hg o.id, if_neg hproducer,
      List.map_nil] at houtputs
    rw [← List.map_eq_nil_iff (f := t'.outputAt), houtputs,
      List.flatMap_eq_nil_iff]
    exact fun _ _ => rfl
  have hnot : g ∉ t.consumedBy i := fun hgi =>
    htarget (h.target_of_mem_consumedBy ho hi he hg hgi)
  rw [wireAt, wireAt, hadded, hj.tasksReading, if_neg hnot, hnone,
    List.append_nil, List.append_nil]

/-- New subtasks enter a fully wired edge of their vertex at both ends, and
leave the other edges alone. -/
theorem Sound.laid_joined (h : t.Sound) (ho : o ∈ t.operators)
    (hi : i ∈ o.tasks)
    (hj : t.Joined o.parallelism (t.consumedBy i) (t.graph.outputsOf o.id) n
      t') (hgroups : t'.dataSetGroups = t.dataSetGroups)
    (hpattern : e.producer = o.id ∨ e.target = o.id → e.pattern = .allToAll)
    (hx : x ∈ t.operators) (he : e ∈ x.inputs) (hy : y ∈ t.operators)
    (hid : y.id = e.producer) :
    t'.LaidAlong e
      (if y.id = o.id then y.extend t.tasks.size n else y).tasks
      (if x.id = o.id then x.extend t.tasks.size n else x).tasks := by
  have hlaid := h.laid x hx e he y hy hid
  have hmem : e ∈ t.operators.flatMap (·.inputs) :=
    List.mem_flatMap.mpr ⟨x, hx, he⟩
  have htarget : e.target = x.id := by
    obtain ⟨v, hv, hvid, hinputs⟩ := h.staffed.inputs_eq hx
    rw [h.graph.target v hv e (hinputs ▸ he), hvid]
  rw [tasks_extend, tasks_extend, hid, ← htarget]
  by_cases hends : e.producer = o.id ∨ e.target = o.id
  · obtain ⟨ps, hps, hwires⟩ := hlaid.wires
    rw [hpattern hends, Wire.ofPattern] at hwires
    obtain ⟨g, hgs, hwire⟩ := List.map_eq_singleton_iff.mp hwires
    obtain ⟨hpartitions, hreaders⟩ := Wire.mk.inj hwire
    have hg : g ∈ t.dataSetGroups.getD e.source [] := by simp [hgs]
    obtain ⟨added, hadded, houtputs⟩ := hj.partitionsIn g
    -- The sibling reads the group if the edge leads to its vertex.
    have hconsumed : g ∈ t.consumedBy i ↔ e.target = o.id := by
      refine ⟨h.target_of_mem_consumedBy ho hi hmem hg, fun hxo => ?_⟩
      rw [← h.wired.grouped.mem_tasksReading, hreaders]
      rwa [h.staffed.operator_inj hx ho (htarget.symm.trans hxo)]
    refine ⟨by rw [hgroups]; exact hlaid.nodup, ps ++ added, ?_, ?_⟩
    · have hlength : y.tasks.length = y.parallelism :=
        h.staffed.length_tasks hy
      rw [Produces, List.map_append, houtputs, List.zipIdx_append,
        List.map_append, ← hps.congr hj.outputAt]
      congr 1
      simp only [h.outputsInto_eq hmem hg o.id]
      split
      · rename_i hyo
        have hsame := h.staffed.operator_inj hy ho (hid.trans hyo)
        rw [hlength, hsame]
        simp only [List.map_singleton, ← List.map_eq_flatMap]
        apply List.ext_getElem
        · simp
        · intro k hk hk'
          simp
      · simp
    · rw [hgroups, hpattern hends, hgs, List.map_singleton, Wire.ofPattern,
        wireAt, hadded, hj.tasksReading, hpartitions, hreaders]
      simp only [hconsumed]
  · rw [not_or] at hends
    rw [if_neg hends.1, if_neg hends.2, List.append_nil, List.append_nil]
    exact h.laid_apart ho hi hj hgroups hmem hends.1 hends.2 hlaid

end Stay

end Topology

end ControlPlane
