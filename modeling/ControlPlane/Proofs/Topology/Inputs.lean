import Mathlib
import ControlPlane.Proofs.Topology.InOrder
import ControlPlane.Proofs.Topology.Views

/-!
# Consumed groups follow the inputs

The groups that a task consumes are looked up by place: the first belongs to
the first input of its vertex, and so on. Edges are connected input by input
and give every reader one group; a later subtask takes over the groups of its
sibling. So no task ever gets two groups for one input, or none.
-/

namespace ControlPlane

namespace JobGraph.SameEdges

variable {g g' g'' : JobGraph}

theorem refl (g : JobGraph) : g.SameEdges g := ⟨rfl, rfl⟩

theorem trans (h : g.SameEdges g') (h' : g'.SameEdges g'') :
    g.SameEdges g'' :=
  ⟨h'.positions.trans h.positions, h'.vertices.trans h.vertices⟩

/-- Every vertex was there before, with the same inputs. -/
theorem exists_vertex (h : g.SameEdges g') {v' : JobVertex}
    (hv' : v' ∈ g'.vertices) :
    ∃ v ∈ g.vertices, v.id = v'.id ∧ v.inputs = v'.inputs := by
  have hmem := List.mem_map_of_mem (f := fun v => (v.id, v.inputs)) hv'
  rw [h.vertices] at hmem
  obtain ⟨v, hv, heq⟩ := List.mem_map.mp hmem
  exact ⟨v, hv, congrArg Prod.fst heq, congrArg Prod.snd heq⟩

end JobGraph.SameEdges

namespace Topology

/-! ## The group of an input -/

/-- A group has the data of an edge, from tasks of its producer. -/
structure Carries (t : Topology) (group : PartitionGroup) (e : JobEdge) :
    Prop where
  dataSet : group.dataSet = e.source
  kind : group.kind = e.kind
  pattern : group.pattern = e.pattern
  nonempty : group.partitions ≠ []
  producer : ∀ p ∈ group.partitions, ∃ part task,
    t.partitions[p]? = some part ∧ t.tasks[part.producer]? = some task ∧
      task.id.vertex = e.producer

/-- A task consumes one group for each of the inputs, in their order. -/
structure ReadsInputs (t : Topology) (task : Task) (inputs : List JobEdge) :
    Prop where
  length : task.consumed.length = inputs.length
  group : ∀ (k : Nat) e, inputs[k]? = some e → ∃ g group,
    task.consumed[k]? = some g ∧ t.groups[g]? = some group ∧
      t.Carries group e

section Whole

variable {t : Topology} (h : t.Whole)

include h

/-- What is exchanged in a group tells its edge. -/
theorem Whole.carries {e : JobEdge} (he : e ∈ t.graph.edges) {g : Nat}
    {group : PartitionGroup} (hgroup : t.groups[g]? = some group)
    (hg : t.exchangeAt g = some e.exchange) : t.Carries group e := by
  have hexchange : (⟨group.dataSet, group.kind, group.pattern⟩ : Exchange) =
      e.exchange := by
    rw [exchangeAt, hgroup, Option.map_some, Option.some.injEq] at hg
    exact hg
  have hpartitions : t.partitionsIn g = group.partitions := by
    rw [partitionsIn, hgroup]
    rfl
  refine ⟨congrArg Exchange.dataSet hexchange, congrArg Exchange.kind hexchange,
    congrArg Exchange.pattern hexchange, ?nonempty, ?producer⟩
  case nonempty =>
    -- The group is a wire of the edge, and none of these is without data.
    have hwire := (h.groupView_eq he hg).1
    have hne := Wire.partitions_ne_nil e.pattern (h.range_ne_nil he).1 hwire
    rw [← hpartitions]
    intro hnil
    apply hne
    show (t.partitionsIn g).map t.numberOf = []
    rw [hnil, List.map_nil]
  case producer =>
    intro p hp
    rw [← hpartitions] at hp
    obtain ⟨i, houtput, hid⟩ := h.output_of_mem he hg hp
    obtain ⟨part, hpart, hout⟩ := Option.map_eq_some_iff.mp houtput
    obtain ⟨task, htask, htaskid⟩ := Option.map_eq_some_iff.mp hid
    have hi : part.producer = i := congrArg Output.producer hout
    exact ⟨part, task, hpart, by rw [hi, htask], by rw [htaskid]⟩

/-- Tasks read along the inputs of their vertices. -/
theorem Whole.readsInputs {i : Nat} {task : Task}
    (htask : t.tasks[i]? = some task) :
    ∃ o ∈ t.operators, o.id = task.id.vertex ∧
      t.ReadsInputs task o.inputs := by
  have hid := taskIdAt_of_getElem? htask
  obtain ⟨o, ho, hv⟩ := h.owned i task.id hid
  have hmem := (h.staffed.mem_tasks ho).mpr ⟨task.id, hid, hv.symm⟩
  have hexchanges := h.exchanges_of_mem ho hmem
  rw [consumedBy_of_getElem? htask] at hexchanges
  refine ⟨o, ho, hv, ?length, ?group⟩
  case length => simpa using congrArg List.length hexchanges
  case group =>
    intro k e hk
    have hplace := congrArg (·[k]?) hexchanges
    simp only [List.getElem?_map, hk, Option.map_some] at hplace
    obtain ⟨g, hg, hexchange⟩ := Option.map_eq_some_iff.mp hplace
    have hlt := lt_of_exchangeAt hexchange
    have hedge : e ∈ t.graph.edges := h.edges_perm.mem_iff.mp
      (List.mem_flatMap.mpr ⟨o, ho, List.mem_of_getElem? hk⟩)
    exact ⟨g, _, hg, Array.getElem?_eq_getElem hlt,
      h.carries hedge (Array.getElem?_eq_getElem hlt) hexchange⟩

end Whole

/-! ## After any calls -/

theorem Reachable.sameEdges_run {t : Topology} (h : t.Reachable) (c : Call) :
    t.graph.SameEdges (c.run t).graph := by
  rcases h.whole.call_cases c with heq | ⟨i, a, -, ha⟩ | ⟨o, i, n, -, -, hext⟩
  · rw [heq]
    exact .refl t.graph
  · rw [ha.staff.graph]
    exact .refl t.graph
  · exact hext.sameEdges

theorem Reachable.sameEdges_runAll {t : Topology} (h : t.Reachable)
    (calls : List Call) : t.graph.SameEdges (t.runAll calls).graph := by
  induction calls generalizing t with
  | nil => exact .refl t.graph
  | cons c calls ih => exact (h.sameEdges_run c).trans (ih (h.call c))

/-! ## A job with two inputs -/

/-- The sinks also read from a table, each its own part. -/
def joinedGraph : JobGraph :=
  ((sampleGraph.addVertex ⟨⟨5⟩⟩ "table" 3).connect ⟨⟨4⟩⟩ ⟨⟨5⟩⟩ sampleSink
    .pointwise .pipelined).toOption.getD sampleGraph

theorem built_joinedGraph : joinedGraph.Built := by
  have hconnect : (sampleGraph.addVertex ⟨⟨5⟩⟩ "table" 3).connect ⟨⟨4⟩⟩ ⟨⟨5⟩⟩
      sampleSink .pointwise .pipelined = .ok joinedGraph := rfl
  exact .connect (.addVertex "table" 3 built_sampleGraph (by decide +kernel))
    (by decide +kernel) hconnect

/-- The topology of the job with a table. -/
def joined : Topology :=
  (ofJobGraph joinedGraph).toOption.getD { graph := joinedGraph }

theorem ofJobGraph_joinedGraph : ofJobGraph joinedGraph = .ok joined :=
  eq_ok_getD (by decide +kernel) _

/-! ## Places of inputs -/

/-- After any calls, the groups that a task consumes belong to the inputs of
its vertex, place by place. -/
theorem readsInputs_runAll {g : JobGraph} (hg : g.Built) {t : Topology}
    (h : ofJobGraph g = .ok t) (calls : List Call) :
    ∀ task ∈ (t.runAll calls).tasks, ∃ v ∈ g.vertices,
      v.id = task.id.vertex ∧
      (∃ o, (t.runAll calls).operator v.id = .ok o ∧ o.inputs = v.inputs) ∧
      (t.runAll calls).ReadsInputs task v.inputs := by
  have hstart := Reachable.built hg h
  have hedges := hstart.sameEdges_runAll calls
  have hwhole := (hstart.runAll calls).whole
  obtain ⟨t0, -, hgraph, rfl⟩ := exists_of_ofJobGraph hg.wellFormed h
  rw [graph_computeRegions, hgraph] at hedges
  intro task htask
  obtain ⟨i, hi⟩ := Array.mem_iff_getElem?.mp htask
  obtain ⟨o, ho, hid, hreads⟩ := hwhole.readsInputs hi
  obtain ⟨v', hv', hvid', hinputs'⟩ := hwhole.staffed.inputs_eq ho
  obtain ⟨v, hv, hvid, hinputs⟩ := hedges.exists_vertex hv'
  have hsame : o.inputs = v.inputs := by rw [hinputs, hinputs']
  refine ⟨v, hv, by rw [hvid, hvid', hid], ⟨o, ?_, hsame⟩, hsame ▸ hreads⟩
  exact hwhole.staffed.operator_eq_ok.mpr ⟨ho, by rw [hvid, hvid']⟩

/-- The second sink reads from three sources, once there is a third, and from
its part of the table. -/
theorem readsInputs_grown_joined :
    let t := joined.runAll [.extendRegion ⟨sampleSource, 0⟩ 1]
    ∃ task ∈ t.tasks, task.id = ⟨sampleSink, 1⟩ ∧
      task.consumed.map (t.groups[·]?.map (·.partitions.length)) =
        [some 3, some 2] ∧
      ∃ v ∈ joinedGraph.vertices, v.id = sampleSink ∧
        t.ReadsInputs task v.inputs := by
  intro t
  have hsink : (t.tasks.any fun task => task.id = ⟨sampleSink, 1⟩ ∧
      task.consumed.map (t.groups[·]?.map (·.partitions.length)) =
        [some 3, some 2]) = true := by decide +kernel
  obtain ⟨i, hi, hfound⟩ := Array.any_eq_true.mp hsink
  obtain ⟨hid, hsizes⟩ := of_decide_eq_true hfound
  have hmem : t.tasks[i] ∈ t.tasks := Array.getElem_mem hi
  obtain ⟨v, hv, hvid, -, hreads⟩ :=
    readsInputs_runAll built_joinedGraph ofJobGraph_joinedGraph _ _ hmem
  exact ⟨t.tasks[i], hmem, hid, hsizes, v, hv, by rw [hvid, hid], hreads⟩

end Topology

end ControlPlane
