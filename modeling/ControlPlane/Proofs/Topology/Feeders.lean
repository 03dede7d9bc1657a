import Mathlib
import ControlPlane.Proofs.JobGraph.Reach
import ControlPlane.Proofs.Topology.Arcs

/-!
# Who feeds a task

A task is fed along the inputs of its operator. Through full wiring it is fed
by every subtask of the producer, and through pointwise wiring by at least
one: no subtask is left without a partition, because no side of an edge is
empty.
-/

namespace ControlPlane

namespace Wire

/-- Of two sides with subtasks, a pointwise edge leaves no consumer without a
partition. -/
theorem partitions_ne_nil (pattern : Pattern) {ps : List PartitionIndex}
    {cs : List TaskIndex} (hps : ps ≠ []) {w : Wire}
    (hw : w ∈ ofPattern pattern ps cs) : w.partitions ≠ [] := by
  cases pattern with
  | allToAll =>
    rw [ofPattern, List.mem_singleton] at hw
    rwa [hw]
  | pointwise =>
    simp only [ofPattern, pointwise] at hw
    split at hw
    · rw [List.zipWith_eq_zipWith_take_min] at hw
      obtain ⟨k, hk⟩ := List.mem_iff_getElem.mp hw
      obtain ⟨hlt, rfl⟩ := hk
      simp
    · split at hw
      · rename_i hlt
        obtain ⟨⟨c, i⟩, hci, rfl⟩ := List.mem_map.mp hw
        have hi : i < cs.length := (List.mem_zipIdx' hci).1
        -- The range has at least one element and starts inside the list.
        have hstep := mul_div_lt_succ (by omega) (Nat.le_of_lt hlt) i
        have hend : (i + 1) * ps.length / cs.length ≤ ps.length :=
          succ_mul_div_le hi
        rw [slice_eq, ← List.length_pos_iff, List.length_take,
          List.length_drop]
        dsimp only
        omega
      · obtain ⟨⟨p, i⟩, -, rfl⟩ := List.mem_map.mp hw
        simp

end Wire

namespace Topology

section Inputs

variable {t : Topology} {o o' : Operator} {e : JobEdge} {i j : Nat}

/-- The inputs of an operator are the connected edges to its vertex. -/
theorem Sound.filter_target (h : t.Sound) (ho : o ∈ t.operators) :
    (t.operators.flatMap (·.inputs)).filter (·.target = o.id) = o.inputs := by
  have hids : (t.operators.map (·.id)).Nodup := by
    rw [List.nodup_iff_injective_getElem]
    intro p q hpq
    have hp := p.isLt
    have hq := q.isLt
    simp only [List.length_map] at hp hq
    simp only [List.getElem_map] at hpq
    exact Fin.ext (h.staffed.operatorIndex.inj
      (k := (t.operators[p.val]).id) (by simp [hp]) (by simp [hq, hpq]))
  refine filter_flatMap_key hids ?_ ho
  intro x hx e he
  obtain ⟨v, hv, hvid, hinputs⟩ := h.staffed.inputs_eq hx
  rw [h.graph.target v hv e (hinputs ▸ he), hvid]

/-- A task consumes one group for each input of its operator, in their
order. -/
theorem Sound.exchanges_of_mem (h : t.Sound) (ho : o ∈ t.operators)
    (hi : i ∈ o.tasks) :
    (t.consumedBy i).map t.exchangeAt =
      o.inputs.map fun e => some e.exchange := by
  obtain ⟨id, hid, hv⟩ := (h.staffed.mem_tasks ho).mp hi
  rw [h.wired.carrying.consumed i id hid, hv, h.filter_target ho]

/-- A task on a wire of an input is fed by the producers of the partitions
on it. -/
theorem Sound.feeds_of_wire (h : t.Sound) {ps : List Nat}
    (hps : t.Produces e o'.tasks ps)
    (hwires : (t.dataSetGroups.getD e.source []).map t.wireAt =
      Wire.ofPattern e.pattern ps o.tasks) {w : Wire}
    (hw : w ∈ Wire.ofPattern e.pattern ps o.tasks) (hi : i ∈ w.consumers)
    {k : Nat} (hk : o'.tasks[k]? = some j)
    (hp : ∀ p, ps[k]? = some p → p ∈ w.partitions) :
    t.Feeds j i e.kind := by
  rw [← hwires] at hw
  obtain ⟨g, -, rfl⟩ := List.mem_map.mp hw
  have houtput := congrArg (·[k]?) hps
  simp only [List.getElem?_map, List.getElem?_zipIdx, hk,
    Option.map_some] at houtput
  obtain ⟨p, hpk, hx⟩ := Option.map_eq_some_iff.mp houtput
  exact ⟨g, (h.wired.grouped.mem_tasksReading g i).mp hi, p, hp p hpk, _, hx,
    rfl, rfl⟩

variable (h : t.Sound) (ho : o ∈ t.operators) (he : e ∈ o.inputs)
  (ho' : o' ∈ t.operators) (hid : o'.id = e.producer)

include h ho he ho' hid

/-- Through full wiring every subtask of the producer feeds a task. -/
theorem Sound.feeds_of_shuffle (hpattern : e.pattern = .allToAll)
    (hi : i ∈ o.tasks) (hj : j ∈ o'.tasks) : t.Feeds j i e.kind := by
  obtain ⟨ps, hps, hwires⟩ := (h.laid o ho e he o' ho' hid).wires
  obtain ⟨k, hk⟩ := List.mem_iff_getElem?.mp hj
  refine h.feeds_of_wire hps hwires (w := ⟨ps, o.tasks⟩) ?_ hi hk
    fun p hp => List.mem_of_getElem? hp
  rw [hpattern, Wire.ofPattern]
  exact List.mem_singleton_self _

/-- Along every input some subtask of the producer feeds a task. -/
theorem Sound.exists_feeds (hi : i ∈ o.tasks) :
    ∃ j ∈ o'.tasks, t.Feeds j i e.kind := by
  obtain ⟨ps, hps, hwires⟩ := (h.laid o ho e he o' ho' hid).wires
  have hlength : ps.length = o'.tasks.length := by
    simpa [Produces] using congrArg List.length hps
  have hps_ne : ps ≠ [] := by
    intro hnil
    rw [hnil] at hlength
    exact h.tasks_ne_nil ho' (List.length_eq_zero_iff.mp hlength.symm)
  -- The wires take up all readers, and none of them is without partitions.
  have hmem : i ∈ (Wire.ofPattern e.pattern ps o.tasks).flatMap
      (·.consumers) := by
    rwa [Wire.flatMap_consumers _ hps_ne]
  obtain ⟨w, hw, hiw⟩ := List.mem_flatMap.mp hmem
  obtain ⟨p, hp⟩ :=
    List.exists_mem_of_ne_nil _ (Wire.partitions_ne_nil _ hps_ne hw)
  have hpps : p ∈ ps := by
    rw [← Wire.flatMap_partitions e.pattern ps (h.tasks_ne_nil ho)]
    exact List.mem_flatMap.mpr ⟨w, hw, hp⟩
  obtain ⟨k, hk⟩ := List.mem_iff_getElem?.mp hpps
  have hlt := (List.getElem?_eq_some_iff.mp hk).1
  have hget : o'.tasks[k]? = some o'.tasks[k] :=
    List.getElem?_eq_getElem (hlength ▸ hlt)
  refine ⟨_, List.mem_of_getElem? hget,
    h.feeds_of_wire hps hwires hw hiw hget ?_⟩
  intro p' hp'
  rw [hk, Option.some.injEq] at hp'
  exact hp' ▸ hp

end Inputs

/-- The place of the operator of a task in topological order. -/
def placeOf (t : Topology) (i : TaskIndex) : Nat :=
  ((t.taskIdAt i).bind fun id => t.operatorIndex[id.vertex]?).getD 0

section Whole

variable {t : Topology} (h : t.Whole)

include h

/-- A task is fed by one of an earlier operator. -/
theorem Whole.placeOf_lt_of_feeds {i j : Nat} {kind : ResultKind}
    (hf : t.Feeds j i kind) : t.placeOf j < t.placeOf i := by
  obtain ⟨e, he, -, ⟨id', hj, hproducer⟩, id, hi, htarget⟩ :=
    h.edge_of_feeds hf
  obtain ⟨o, ho, hv, heo⟩ := h.exists_target he
  obtain ⟨q, hq⟩ := List.mem_iff_getElem?.mp ho
  have hat : t.vertexAt q = some e.target := by
    simp [vertexAt, hq, hv]
  obtain ⟨p, hlt, o', ho', hid⟩ := h.staffed.producer q o hq e heo
  have hp := (h.staffed.operatorIndex e.producer p).mpr (by simp [ho', hid])
  have hq' := (h.staffed.operatorIndex e.target q).mpr hat
  simpa [placeOf, hi, hj, hproducer, htarget, hp, hq'] using hlt

/-- Data does not flow in circles. -/
theorem Whole.wellFounded_feeds :
    WellFounded fun j i => ∃ kind, t.Feeds j i kind :=
  Subrelation.wf (fun ⟨_, hf⟩ => h.placeOf_lt_of_feeds hf)
    (measure t.placeOf).wf

/-- A task is fed from every vertex with an edge to its own. -/
theorem Whole.exists_feeds_of_leadsTo {i : Nat} {id : TaskId} {a : VertexId}
    (hi : t.taskIdAt i = some id) (ha : t.graph.LeadsTo a id.vertex) :
    ∃ j id' kind, t.taskIdAt j = some id' ∧ id'.vertex = a ∧
      t.Feeds j i kind := by
  obtain ⟨e, he, rfl, htarget⟩ := ha
  obtain ⟨o, ho, hv, heo⟩ := h.exists_target he
  obtain ⟨o', ho', hid⟩ := h.staffed.exists_producer ho heo
  have hmem := (h.staffed.mem_tasks ho).mpr
    ⟨id, hi, htarget.symm.trans hv.symm⟩
  obtain ⟨j, hj, hf⟩ := h.exists_feeds ho heo ho' hid hmem
  obtain ⟨id', hid', hv'⟩ := (h.staffed.mem_tasks ho').mp hj
  exact ⟨j, id', _, hid', hv'.trans hid, hf⟩

/-- Some task feeds a task whose vertex an edge leads to. -/
theorem Whole.exists_feeds_iff {i : Nat} {id : TaskId}
    (hi : t.taskIdAt i = some id) :
    (∃ j kind, t.Feeds j i kind) ↔ ∃ a, t.graph.LeadsTo a id.vertex := by
  constructor
  · rintro ⟨j, kind, hf⟩
    obtain ⟨e, he, -, -, id', hid', htarget⟩ := h.edge_of_feeds hf
    rw [hi, Option.some.injEq] at hid'
    exact ⟨_, e, he, rfl, by rw [hid', htarget]⟩
  · rintro ⟨a, ha⟩
    obtain ⟨j, -, kind, -, -, hf⟩ := h.exists_feeds_of_leadsTo hi ha
    exact ⟨j, kind, hf⟩

end Whole

end Topology

end ControlPlane
