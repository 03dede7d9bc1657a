import Mathlib
import ControlPlane.Proofs.Topology.Subtasks

/-!
# A topology by the numbers of its subtasks

A partition carries the number of the subtask that produces it. With
partitions and tasks replaced by their numbers, the groups of an edge are the
wires that the job graph says it has. So who feeds whom, and who belongs
together, is what the job graph says of the ids.
-/

namespace ControlPlane

namespace Topology

/-- The number of a partition in its dataset. -/
def numberOf (t : Topology) (p : PartitionIndex) : Nat :=
  ((t.outputAt p).map (·.id.number)).getD 0

/-- The number of a task among the subtasks of its vertex. -/
def subtaskOf (t : Topology) (i : TaskIndex) : Nat :=
  ((t.taskIdAt i).map (·.subtask)).getD 0

/-- The wire of a group, in numbers. -/
def numberedAt (t : Topology) (g : GroupIndex) : Wire :=
  (t.wireAt g).map t.numberOf t.subtaskOf

section Numbers

variable {t : Topology} (h : t.Whole) {e : JobEdge} {i j g p : Nat}

include h

theorem Whole.parallelismOf_eq {o : Operator} (ho : o ∈ t.operators) :
    t.graph.parallelismOf o.id = o.parallelism := by
  obtain ⟨v, hv, hov⟩ := h.staffed.vertex o ho
  rw [hov]
  exact h.graph.parallelismOf_eq hv

/-- The tasks are the subtasks of the vertices. -/
theorem Whole.exists_taskIdAt_iff {id : TaskId} :
    (∃ i, t.taskIdAt i = some id) ↔
      id.subtask < t.graph.parallelismOf id.vertex := by
  constructor
  · rintro ⟨i, hi⟩
    obtain ⟨o, ho, hv⟩ := h.owned i id hi
    rw [← hv, h.parallelismOf_eq ho]
    exact h.staffed.subtask_lt ho hi hv.symm
  · intro hlt
    unfold JobGraph.parallelismOf at hlt
    split at hlt
    · rename_i v hvertex
      obtain ⟨hv, hid⟩ := h.graph.vertex_eq_ok.mp hvertex
      obtain ⟨o, ho, hoid, hov⟩ := h.exists_operator hv
      have hparallelism : o.parallelism = v.parallelism := by
        rw [hov]
        rfl
      have hlength : id.subtask < o.tasks.length := by
        rwa [h.staffed.length_tasks ho, hparallelism]
      refine ⟨_, (h.staffed.taskIdAt_getElem? ho
        (List.getElem?_eq_getElem hlength)).trans ?_⟩
      rw [hoid, hid]
    · exact absurd hlt (Nat.not_lt_zero _)

/-- The groups of a dataset are those that carry its edge. -/
theorem Whole.mem_dataSetGroups (he : e ∈ t.graph.edges) :
    g ∈ t.dataSetGroups.getD e.source [] ↔
      t.exchangeAt g = some e.exchange := by
  rw [h.wired.carrying.dataSetGroups]
  constructor
  · intro hd
    obtain ⟨x, hx, hdata⟩ := Option.map_eq_some_iff.mp hd
    obtain ⟨e', he', rfl⟩ := h.wired.carrying.exchange g x hx
    rw [hx, h.graph.edge_inj (h.edges_perm.mem_iff.mp he') he hdata]
  · intro hx
    rw [hx]
    rfl

section Group

variable (he : e ∈ t.graph.edges) (hg : t.exchangeAt g = some e.exchange)

include he hg

/-- A partition in a group of an edge is the output for that edge of one of
the subtasks of the producer. -/
theorem Whole.output_of_mem (hp : p ∈ t.partitionsIn g) :
    ∃ i, t.outputAt p = some (e.output (t.numberOf p) i) ∧
      t.taskIdAt i = some ⟨e.producer, t.numberOf p⟩ := by
  obtain ⟨x, hx⟩ := exists_outputAt (h.wired.grouped.lt_of_mem_partitionsIn hp)
  obtain ⟨id, hid, hvertex, hxe⟩ := h.output_of_group he hg hp hx
  have hnumber : t.numberOf p = id.subtask := by
    rw [numberOf, hx, hxe]
    rfl
  refine ⟨x.producer, ?_, ?_⟩
  · rw [hx, hnumber, ← hxe]
  · rw [hid, hnumber, ← hvertex]

/-- A reader of a group of an edge is a subtask of the target. -/
theorem Whole.taskIdAt_of_mem (hi : i ∈ t.tasksReading g) :
    t.taskIdAt i = some ⟨e.target, t.subtaskOf i⟩ := by
  have hconsumed := (h.wired.grouped.mem_tasksReading g i).mp hi
  obtain ⟨id, hid⟩ := exists_taskIdAt (lt_of_mem_consumedBy hconsumed)
  obtain ⟨e', he', htarget, hexchange⟩ :=
    h.wired.carrying.exchange_of_mem hid hconsumed
  rw [hg, Option.some.injEq] at hexchange
  have hsame : e = e' := h.graph.edge_inj he (h.edges_perm.mem_iff.mp he')
    (congrArg Exchange.dataSet hexchange)
  have hnumber : t.subtaskOf i = id.subtask := by
    rw [subtaskOf, hid]
    rfl
  rw [hid, hnumber, hsame, htarget]

end Group

/-- In numbers, the groups of an edge are its wires. -/
theorem Whole.numbered_wires (he : e ∈ t.graph.edges) :
    (t.dataSetGroups.getD e.source []).map t.numberedAt =
      t.graph.wiresOf e := by
  obtain ⟨o, ho, hid, heo⟩ := h.exists_target he
  obtain ⟨o', ho', hid'⟩ := h.staffed.exists_producer ho heo
  obtain ⟨ps, hps, hwires⟩ := (h.laid o ho e heo o' ho' hid').wires
  have hpartitions : ps.map t.numberOf = List.range o'.parallelism := by
    have hmap := congrArg
      (List.map fun x : Option Output => (x.map (·.id.number)).getD 0) hps
    rw [List.map_map, List.map_map] at hmap
    rw [← h.staffed.length_tasks ho', List.range_eq_range',
      ← List.zipIdx_map_snd 0 o'.tasks]
    exact hmap
  have hconsumers : o.tasks.map t.subtaskOf = List.range o.parallelism := by
    have hmap := congrArg
      (List.map fun x : Option TaskId => (x.map (·.subtask)).getD 0)
      (h.staffed.tasks o ho)
    rw [List.map_map, List.map_map] at hmap
    exact hmap.trans (List.map_id' _)
  rw [JobGraph.wiresOf, ← hid, ← hid', h.parallelismOf_eq ho,
    h.parallelismOf_eq ho', ← hpartitions, ← hconsumers, Wire.ofPattern_map,
    ← hwires, List.map_map]
  rfl

/-! ## Who feeds whom -/

theorem Whole.exists_feeds_of_subtaskFeeds {a b : TaskId} {kind : ResultKind}
    (hf : t.graph.SubtaskFeeds a b kind) :
    ∃ i j, t.taskIdAt i = some a ∧ t.taskIdAt j = some b ∧
      t.Feeds i j kind := by
  obtain ⟨e, he, rfl, hproducer, htarget, w, hw, hk, hl⟩ := hf
  rw [← h.numbered_wires he] at hw
  obtain ⟨g, hg, rfl⟩ := List.mem_map.mp hw
  rw [h.mem_dataSetGroups he] at hg
  obtain ⟨p, hp, hnumber⟩ := List.mem_map.mp hk
  obtain ⟨j, hj, hsubtask⟩ := List.mem_map.mp hl
  obtain ⟨i, hout, hi⟩ := h.output_of_mem he hg hp
  have hj' := h.taskIdAt_of_mem he hg hj
  rw [hnumber, hproducer] at hi
  rw [hsubtask, htarget] at hj'
  exact ⟨i, j, hi, hj', g, (h.wired.grouped.mem_tasksReading g j).mp hj, p, hp,
    _, hout, rfl, rfl⟩

variable {a b : TaskId} (hi : t.taskIdAt i = some a) (hj : t.taskIdAt j = some b)

include hi hj

/-- A task feeds another one as the job graph says. -/
theorem Whole.feeds_iff {kind : ResultKind} :
    t.Feeds i j kind ↔ t.graph.SubtaskFeeds a b kind := by
  constructor
  · rintro ⟨g, hg, p, hp, x, hx, rfl, rfl⟩
    obtain ⟨e, he, hexchange, hkind, ⟨id, hid, hproducer⟩, id', hid',
      htarget⟩ := h.edge_of_reading hg hp hx
    rw [hi, Option.some.injEq] at hid
    rw [hj, Option.some.injEq] at hid'
    subst hid hid'
    have hreads := (h.wired.grouped.mem_tasksReading g j).mpr hg
    -- Partitions are numbered by the subtask that produces them.
    have hnumber : a.subtask = t.numberOf p := by
      obtain ⟨k, hout, hk⟩ := h.output_of_mem he hexchange hp
      rw [hx, Option.some.injEq] at hout
      rw [hout, JobEdge.output, hk, Option.some.injEq] at hi
      rw [← hi]
    have hsubtask : b.subtask = t.subtaskOf j := by
      rw [subtaskOf, hj]
      rfl
    refine ⟨e, he, hkind, hproducer.symm, htarget.symm, t.numberedAt g, ?_,
      ?_, ?_⟩
    · rw [← h.numbered_wires he]
      exact List.mem_map_of_mem ((h.mem_dataSetGroups he).mpr hexchange)
    · rw [hnumber]
      exact List.mem_map_of_mem hp
    · rw [hsubtask]
      exact List.mem_map_of_mem hreads
  · intro hf
    obtain ⟨i', j', hi', hj', hfeeds⟩ := h.exists_feeds_of_subtaskFeeds hf
    rw [h.wired.indexed.taskId_inj hi hi', h.wired.indexed.taskId_inj hj hj']
    exact hfeeds

theorem Whole.taskArc_iff : t.TaskArc i j ↔ t.graph.SubtaskArc a b := by
  simp only [TaskArc, JobGraph.SubtaskArc, h.feeds_iff hi hj,
    h.feeds_iff hj hi]

theorem Whole.reaches_iff :
    Relation.ReflTransGen t.TaskArc i j ↔
      Relation.ReflTransGen t.graph.SubtaskArc a b := by
  constructor
  · intro hr
    induction hr generalizing b with
    | refl =>
      rw [hi, Option.some.injEq] at hj
      exact hj ▸ .refl
    | tail _ harc ih =>
      obtain ⟨c, hc⟩ := exists_taskIdAt (h.lt_of_taskArc harc).1
      exact (ih hc).tail ((h.taskArc_iff hc hj).mp harc)
  · intro hr
    induction hr generalizing j with
    | refl => exact h.wired.indexed.taskId_inj hi hj ▸ .refl
    | tail _ harc ih =>
      obtain ⟨k, hk⟩ : ∃ k, t.taskIdAt k = some _ := by
        rcases harc with ⟨kind, hf⟩ | hf
        · obtain ⟨k, -, hk, -⟩ := h.exists_feeds_of_subtaskFeeds hf
          exact ⟨k, hk⟩
        · obtain ⟨-, k, -, hk, -⟩ := h.exists_feeds_of_subtaskFeeds hf
          exact ⟨k, hk⟩
      exact (ih hk).tail ((h.taskArc_iff hk hj).mpr harc)

/-- Tasks belong together as the job graph says. -/
theorem Whole.together_iff :
    t.Together i j ↔ t.graph.SubtasksTogether a b := by
  have hmutual : Mutual t.TaskArc i j ↔ Mutual t.graph.SubtaskArc a b := by
    rw [Mutual, Mutual, h.reaches_iff hi hj, h.reaches_iff hj hi]
  rw [Together, JobGraph.SubtasksTogether, hmutual]
  simp [hi, hj]

end Numbers

end Topology

end ControlPlane
