import Mathlib
import ControlPlane.Proofs.Job.Known
import ControlPlane.Proofs.Topology.Frame
import ControlPlane.Proofs.Topology.Numbered

/-!
# What a call for further subtasks comes to

A call fails if there is no such task or if the operator cannot grow, and
nothing has been changed then: the greatest parallelism is looked at before
the first subtask is appended, and the job graph, which is told last, knows
every vertex that has a task. Any other call changes what it has to.
-/

namespace ControlPlane

theorem JobGraph.name_of_updateVertex {g g' : JobGraph} {id : VertexId}
    {f : JobVertex → JobVertex} (h : g.updateVertex id f = .ok g') :
    g'.name = g.name := by
  obtain ⟨pos, -, hret⟩ := bind_eq_ok_iff.mp h
  cases hret
  rfl

namespace Topology

/-- A vertex cannot have further subtasks: an edge that leads to it or from
it has fixed wiring, or there would be more subtasks than there can be. A
vertex as it is never has too many, so nothing is exceeded by none. -/
def Unfit (t : Topology) (id : VertexId) (n : Nat) : Prop :=
  (∃ e ∈ t.graph.edges, (e.target = id ∨ e.producer = id) ∧
    e.pattern = .pointwise) ∨
  (0 < n ∧ maxParallelism < t.graph.parallelismOf id + n)

section Call

variable {t : Topology} {o : Operator} {id : TaskId} {n : Nat}

/-- The edges looked at are those of the vertex in the job graph. -/
theorem Whole.mem_edges_iff (h : t.Whole) (ho : o ∈ t.operators)
    {e : JobEdge} : e ∈ o.inputs ++ t.graph.outputsOf o.id ↔
      e ∈ t.graph.edges ∧ (e.target = o.id ∨ e.producer = o.id) := by
  rw [List.mem_append, JobGraph.mem_outputsOf]
  constructor
  · intro he
    rcases he with hinput | ⟨hedge, hproducer⟩
    · obtain ⟨v, hv, hvid, hinputs⟩ := h.staffed.inputs_eq ho
      rw [← hinputs] at hinput
      refine ⟨JobGraph.mem_edges.mpr ⟨v, hv, hinput⟩, .inl ?_⟩
      rw [h.graph.target v hv e hinput, hvid]
    · exact ⟨hedge, .inr hproducer⟩
  · intro he
    obtain ⟨hedge, htarget | hproducer⟩ := he
    · obtain ⟨x, hx, hxid, hinput⟩ := h.exists_target hedge
      rw [h.staffed.operator_inj hx ho (hxid.trans htarget)] at hinput
      exact .inl hinput
    · exact .inr ⟨hedge, hproducer⟩

/-- The check finds out whether the vertex of an operator is fit. -/
theorem Whole.checkGrowth_cases (h : t.Whole) (ho : o ∈ t.operators)
    (n : Nat) :
    (¬ t.Unfit o.id n ∧
      checkGrowth o (t.graph.outputsOf o.id) n = .ok ()) ∨
    (t.Unfit o.id n ∧ ∃ defect,
      checkGrowth o (t.graph.outputsOf o.id) n = .error (.rescale defect)) := by
  unfold checkGrowth Unfit
  rw [h.parallelismOf_eq ho]
  -- Pointwise edges are looked for before the new parallelism is.
  cases hfind : (o.inputs ++ t.graph.outputsOf o.id).find?
      (·.pattern ≠ .allToAll) with
  | some e =>
    have hedge := (h.mem_edges_iff ho).mp (List.mem_of_find?_eq_some hfind)
    have hpattern : e.pattern = .pointwise := by
      have hfixed := List.find?_some hfind
      cases he : e.pattern
      · rfl
      · simp [he] at hfixed
    exact .inr ⟨.inl ⟨e, hedge.1, hedge.2, hpattern⟩, _, rfl⟩
  | none =>
    have hwired : ¬ ∃ e ∈ t.graph.edges,
        (e.target = o.id ∨ e.producer = o.id) ∧ e.pattern = .pointwise := by
      intro hfixed
      obtain ⟨e, he, hends, hpattern⟩ := hfixed
      have hnone := List.find?_eq_none.mp hfind e
        ((h.mem_edges_iff ho).mpr ⟨he, hends⟩)
      simp [hpattern] at hnone
    dsimp only
    split
    · rename_i hexceeded
      exact .inr ⟨.inr hexceeded, _, rfl⟩
    · rename_i hrange
      exact .inl ⟨not_or.mpr ⟨hwired, hrange⟩, rfl⟩

/-- A call that has passed the check changes what it has to. -/
theorem Whole.exists_enlarged (h : t.Whole) (hr : t.Regioned) {x : Sibling}
    (hx : t.sibling id = .ok x)
    (hcheck : checkGrowth x.operator (t.graph.outputsOf id.vertex) n = .ok ())
    (hn : n ≠ 0) : ∃ t', t.extendRegion id n = (t', .ok ((List.range n).map
        fun k => ⟨x.operator.id, x.operator.parallelism + k⟩)) ∧
      Enlarged t x.operator x.index n t' := by
  obtain ⟨hid, -, -, ho, hoid⟩ := h.of_sibling hx
  obtain ⟨g, hset, hext⟩ := h.extended_grow hx (pattern_of_checkGrowth hcheck) n
  obtain ⟨hcontinues, hsize⟩ :=
    continues_appended t x (t.graph.outputsOf id.vertex) n
  have hgrown := grown_appendSubtasks t x.operator.id x.pos
    x.operator.parallelism x.task.consumed (t.graph.outputsOf id.vertex) n
  refine ⟨{ t.grow x (t.graph.outputsOf id.vertex) n with graph := g }, ?_, ?_⟩
  · simp only [Topology.extendRegion, hx, hcheck, if_neg hn, hset]
  · have hi : x.index ∈ x.operator.tasks :=
      (h.staffed.mem_tasks ho).mpr ⟨id, hid, hoid.symm⟩
    refine hext.enlarged h hr ho hi ?_ ?_ hgrown.operatorIndex ?_
    · -- Neither the region nor the parallelism is part of a record.
      exact ⟨hcontinues.size_tasks, hcontinues.size_partitions,
        hcontinues.tasks, hcontinues.partitions, hcontinues.unstarted⟩
    · rw [hoid]
      exact hsize
    · exact (JobGraph.name_of_updateVertex hset).trans
        (congrArg JobGraph.name hgrown.graph)

end Call

/-- What the four kinds of calls come to. -/
inductive Outcome (t : Topology) (id : TaskId) (n : Nat) : Prop where
  | unknown (hid : ¬ t.HasTask id)
      (hcall : t.extendRegion id n = (t, .error (.unknownTask id)))
  | refused (hid : t.HasTask id) (hunfit : t.Unfit id.vertex n)
      (defect : RescaleDefect)
      (hcall : t.extendRegion id n = (t, .error (.rescale defect)))
  | nothing (hid : t.HasTask id) (hfit : ¬ t.Unfit id.vertex n) (hn : n = 0)
      (hcall : t.extendRegion id n = (t, .ok []))
  | enlarged (hid : t.HasTask id) (hfit : ¬ t.Unfit id.vertex n) (hn : n ≠ 0)
      (o : Operator) (i : TaskIndex) (t' : Topology) (ho : o ∈ t.operators)
      (hoid : o.id = id.vertex) (hi : t.taskIdAt i = some id)
      (hcall : t.extendRegion id n = (t', .ok ((List.range n).map
        fun k => ⟨o.id, o.parallelism + k⟩)))
      (hchange : Enlarged t o i n t')

theorem Reachable.outcome {t : Topology} (h : t.Reachable) (id : TaskId)
    (n : Nat) : Outcome t id n := by
  by_cases hid : t.HasTask id
  · obtain ⟨x, hx⟩ := h.whole.exists_sibling hid
    obtain ⟨hi, -, -, ho, hoid⟩ := h.whole.of_sibling hx
    have hcases := h.whole.checkGrowth_cases ho n
    rw [hoid] at hcases
    rcases hcases with ⟨hfit, hcheck⟩ | ⟨hunfit, defect, hcheck⟩
    · by_cases hn : n = 0
      · refine .nothing hid hfit hn ?_
        simp only [extendRegion, hx, hcheck, if_pos hn]
      · obtain ⟨t', hcall, hchange⟩ :=
          h.whole.exists_enlarged h.regioned hx hcheck hn
        exact .enlarged hid hfit hn x.operator x.index t' ho hoid hi hcall
          hchange
    · refine .refused hid hunfit defect ?_
      simp only [extendRegion, hx, hcheck]
  · refine .unknown hid ?_
    have hnone : t.taskAt id = .error (.unknownTask id) := by
      cases hat : t.taskAt id with
      | ok i => exact absurd ⟨i, h.whole.wired.indexed.taskAt_eq_ok.mp hat⟩ hid
      | error e => rw [taskAt_eq_error hat]
    simp only [extendRegion, sibling, hnone]
    rfl

/-- What a call for further subtasks answers and changes. -/
structure Answers (t : Topology) (id : TaskId) (n : Nat) : Prop where
  unknown : (t.extendRegion id n).2 = .error (.unknownTask id) ↔
    ¬ t.HasTask id
  refused : t.HasTask id →
    ((∃ defect, (t.extendRegion id n).2 = .error (.rescale defect)) ↔
      t.Unfit id.vertex n)
  accepted : t.HasTask id → ¬ t.Unfit id.vertex n →
    ∃ ids, (t.extendRegion id n).2 = .ok ids
  /-- A failing call changes nothing. -/
  failed : ∀ e, (t.extendRegion id n).2 = .error e →
    (t.extendRegion id n).1 = t
  /-- Neither does a call for no subtasks. -/
  nothing : n = 0 → (t.extendRegion id n).1 = t
  ids : ∀ ids, (t.extendRegion id n).2 = .ok ids →
    ids = (List.range n).map fun k =>
      ⟨id.vertex, t.graph.parallelismOf id.vertex + k⟩
  enlarged : ∀ ids, (t.extendRegion id n).2 = .ok ids → 0 < n →
    ∃ (o : Operator) (i : TaskIndex), o ∈ t.operators ∧ o.id = id.vertex ∧
      o.parallelism = t.graph.parallelismOf id.vertex ∧
      t.taskIdAt i = some id ∧ Enlarged t o i n (t.extendRegion id n).1

/-- Further subtasks are refused without a change or added with no change but
the necessary ones. -/
theorem answers_of_reachable {t : Topology} (h : t.Reachable) (id : TaskId)
    (n : Nat) : Answers t id n := by
  cases h.outcome id n with
  | unknown hid hcall =>
    constructor <;> simp [hcall, hid]
  | refused hid hunfit defect hcall =>
    constructor <;> simp [hcall, hid, hunfit]
  | nothing hid hfit hn hcall =>
    subst hn
    constructor <;> simp [hcall, hid, hfit]
  | enlarged hid hfit hn o i t' ho hoid hi hcall hchange =>
    have hparallelism := h.whole.parallelismOf_eq ho
    rw [hoid] at hcall hparallelism
    constructor <;> simp only [hcall]
    · simp [hid]
    · simp [hid, hfit]
    · simp
    · simp
    · exact fun hzero => absurd hzero hn
    · intro ids hids
      cases hids
      rw [hparallelism]
    · intro ids hids _
      exact ⟨o, i, ho, hoid, hparallelism.symm, hi, hchange⟩

/-- Two sinks are added to the small job. -/
theorem answers_sample : sample.Reachable ∧
    Answers sample ⟨sampleSink, 1⟩ 2 ∧
    (sample.extendRegion ⟨sampleSink, 1⟩ 2).2 =
      .ok [⟨sampleSink, 2⟩, ⟨sampleSink, 3⟩] :=
  ⟨reachable_sample, answers_of_reachable reachable_sample _ _,
    by decide +kernel⟩

end Topology

end ControlPlane
