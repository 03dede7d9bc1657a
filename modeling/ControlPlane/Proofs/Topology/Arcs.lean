import Mathlib
import ControlPlane.Topology.Regions
import ControlPlane.Proofs.Region.Partition
import ControlPlane.Proofs.Topology.Build

/-!
# Arcs between tasks and between vertices

Data that is consumed puts an arc from its producer to its consumer, and one
back if it is pipelined. Tasks only exchange data along the edges of the job
graph, so arcs between tasks are arcs between their vertices. The
dependencies that regions are found from are these arcs, with operators and
tasks named by their place in a list.
-/

namespace ControlPlane

/-- Two things that lead to each other along a relation. -/
def Mutual {α : Type*} (R : α → α → Prop) (x y : α) : Prop :=
  Relation.ReflTransGen R x y ∧ Relation.ReflTransGen R y x

theorem Mutual.symm {α : Type*} {R : α → α → Prop} {x y : α}
    (h : Mutual R x y) : Mutual R y x := And.symm h

theorem Mutual.trans {α : Type*} {R : α → α → Prop} {x y z : α}
    (h : Mutual R x y) (h' : Mutual R y z) : Mutual R x z :=
  ⟨h.1.trans h'.1, h'.2.trans h.2⟩

/-- An arc of the job graph: from the producer of an edge to its target, and
back if the edge is pipelined. -/
def JobGraph.VertexArc (g : JobGraph) (a b : VertexId) : Prop :=
  ∃ e ∈ g.edges, (e.producer = a ∧ e.target = b) ∨
    (e.kind = .pipelined ∧ e.target = a ∧ e.producer = b)

namespace Topology

/-- A task consumes a partition of a kind that another one produces. -/
def Feeds (t : Topology) (i j : TaskIndex) (kind : ResultKind) : Prop :=
  ∃ g ∈ t.consumedBy j, ∃ p ∈ t.partitionsIn g, ∃ x, t.outputAt p = some x ∧
    x.producer = i ∧ x.kind = kind

/-- An arc between tasks: from the producer of a consumed partition to its
consumer, and back if the partition is pipelined. -/
def TaskArc (t : Topology) (i j : TaskIndex) : Prop :=
  (∃ kind, t.Feeds i j kind) ∨ t.Feeds j i .pipelined

variable {t : Topology}

/-! ## Data follows edges -/

/-- A partition in a group of an edge is the output for that edge of a task
of its producer. -/
theorem Whole.output_of_group (h : t.Whole) {e : JobEdge}
    (he : e ∈ t.graph.edges) {g p : Nat}
    (hg : t.exchangeAt g = some e.exchange) (hp : p ∈ t.partitionsIn g)
    {x : Output} (hx : t.outputAt p = some x) :
    ∃ id, t.taskIdAt x.producer = some id ∧ id.vertex = e.producer ∧
      x = e.output id.subtask x.producer := by
  obtain ⟨id, hid, e', he', hxe⟩ := h.wired.producing.exists_output hx
  rw [outputs_of_taskIdAt hid] at he'
  obtain ⟨hedge', hvertex⟩ := JobGraph.mem_outputsOf.mp he'
  have hdata := h.wired.carrying.dataSet g p hp
  rw [hx, hg, hxe] at hdata
  have hsame : e' = e := h.graph.edge_inj hedge' he (Option.some.inj hdata)
  exact ⟨id, hid, hsame ▸ hvertex.symm, hsame ▸ hxe⟩

/-- A partition in a consumed group has come along the edge of the group. -/
theorem Whole.edge_of_reading (h : t.Whole) {j g p : Nat} {x : Output}
    (hg : g ∈ t.consumedBy j) (hp : p ∈ t.partitionsIn g)
    (hx : t.outputAt p = some x) :
    ∃ e ∈ t.graph.edges, t.exchangeAt g = some e.exchange ∧
      e.kind = x.kind ∧
      (∃ id, t.taskIdAt x.producer = some id ∧ id.vertex = e.producer) ∧
      (∃ id, t.taskIdAt j = some id ∧ id.vertex = e.target) := by
  obtain ⟨idj, hidj⟩ := exists_taskIdAt (lt_of_mem_consumedBy hg)
  obtain ⟨e, he, htarget, hexchange⟩ :=
    h.wired.carrying.exchange_of_mem hidj hg
  have hedge : e ∈ t.graph.edges := h.edges_perm.mem_iff.mp he
  obtain ⟨idi, hidi, hvertex, hxe⟩ := h.output_of_group hedge hexchange hp hx
  refine ⟨e, hedge, hexchange, ?_, ⟨idi, hidi, hvertex⟩, idj, hidj,
    htarget.symm⟩
  rw [hxe]
  rfl

/-- Data flows from the producer of an edge to its target. -/
theorem Whole.edge_of_feeds (h : t.Whole) {i j : Nat} {kind : ResultKind}
    (hf : t.Feeds i j kind) :
    ∃ e ∈ t.graph.edges, e.kind = kind ∧
      (∃ id, t.taskIdAt i = some id ∧ id.vertex = e.producer) ∧
      (∃ id, t.taskIdAt j = some id ∧ id.vertex = e.target) := by
  obtain ⟨g, hg, p, hp, x, hx, rfl, rfl⟩ := hf
  obtain ⟨e, he, -, hkind, hproducer, htarget⟩ := h.edge_of_reading hg hp hx
  exact ⟨e, he, hkind, hproducer, htarget⟩

/-- The kind of a group is that of its partitions. -/
theorem Whole.kind_of_mem (h : t.Whole) {g p : Nat} {group : PartitionGroup}
    {x : Output} (hg : t.groups[g]? = some group)
    (hp : p ∈ t.partitionsIn g) (hx : t.outputAt p = some x) :
    group.kind = x.kind := by
  have hexchange : t.exchangeAt g =
      some ⟨group.dataSet, group.kind, group.pattern⟩ := by
    simp [exchangeAt, hg]
  obtain ⟨e, he, hex⟩ := h.wired.carrying.exchange g _ hexchange
  obtain ⟨_, -, -, hxe⟩ := h.output_of_group (h.edges_perm.mem_iff.mp he)
    (hexchange.trans (congrArg some hex.symm)) hp hx
  rw [hxe]
  exact (congrArg Exchange.kind hex).symm

/-- An arc between tasks is one between their vertices. -/
theorem Whole.vertexArc (h : t.Whole) {i j : Nat} (harc : t.TaskArc i j)
    {id id' : TaskId} (hi : t.taskIdAt i = some id)
    (hj : t.taskIdAt j = some id') :
    t.graph.VertexArc id.vertex id'.vertex := by
  have hids : ∀ {k : Nat} {a b : TaskId}, t.taskIdAt k = some a →
      t.taskIdAt k = some b → a = b := fun ha hb =>
    Option.some.inj (ha.symm.trans hb)
  rcases harc with ⟨kind, hf⟩ | hf
  · obtain ⟨e, he, -, ⟨a, ha, hpa⟩, b, hb, htb⟩ := h.edge_of_feeds hf
    refine ⟨e, he, .inl ⟨?_, ?_⟩⟩
    · rw [hids hi ha, hpa]
    · rw [hids hj hb, htb]
  · obtain ⟨e, he, hkind, ⟨a, ha, hpa⟩, b, hb, htb⟩ := h.edge_of_feeds hf
    refine ⟨e, he, .inr ⟨hkind, ?_, ?_⟩⟩
    · rw [hids hi hb, htb]
    · rw [hids hj ha, hpa]

/-- Both ends of an arc are tasks. -/
theorem Whole.lt_of_taskArc (h : t.Whole) {i j : Nat} (harc : t.TaskArc i j) :
    i < t.tasks.size ∧ j < t.tasks.size := by
  rcases harc with ⟨kind, hf⟩ | hf
  · obtain ⟨e, -, -, ⟨a, ha, -⟩, b, hb, -⟩ := h.edge_of_feeds hf
    exact ⟨lt_of_taskIdAt ha, lt_of_taskIdAt hb⟩
  · obtain ⟨e, -, -, ⟨a, ha, -⟩, b, hb, -⟩ := h.edge_of_feeds hf
    exact ⟨lt_of_taskIdAt hb, lt_of_taskIdAt ha⟩

theorem Whole.reaches_vertex (h : t.Whole) {i j : Nat}
    (hr : Relation.ReflTransGen t.TaskArc i j) {id id' : TaskId}
    (hi : t.taskIdAt i = some id) (hj : t.taskIdAt j = some id') :
    Relation.ReflTransGen t.graph.VertexArc id.vertex id'.vertex := by
  induction hr generalizing id' with
  | refl =>
    rw [hi, Option.some.injEq] at hj
    exact hj ▸ .refl
  | tail _ harc ih =>
    obtain ⟨a, ha⟩ := exists_taskIdAt (h.lt_of_taskArc harc).1
    exact (ih ha).tail (h.vertexArc harc ha hj)

theorem Whole.mutual_vertex (h : t.Whole) {i j : Nat}
    (hm : Mutual t.TaskArc i j) {id id' : TaskId}
    (hi : t.taskIdAt i = some id) (hj : t.taskIdAt j = some id') :
    Mutual t.graph.VertexArc id.vertex id'.vertex :=
  ⟨h.reaches_vertex hm.1 hi hj, h.reaches_vertex hm.2 hj hi⟩

/-! ## Dependencies between operators -/

/-- The vertex of the operator at a position. -/
def vertexAt (t : Topology) (pos : Nat) : Option VertexId :=
  t.operators[pos]?.map (·.id)

theorem mem_operatorDependencies {d : Dependency} :
    d ∈ t.operatorDependencies ↔ ∃ o e, t.operators[d.consumer]? = some o ∧
      e ∈ o.inputs ∧ t.operatorIndex[e.producer]? = some d.producer ∧
      d.pipelined = e.kind.isPipelined := by
  simp only [operatorDependencies, List.mem_flatMap, List.mem_filterMap,
    Option.map_eq_some_iff, Prod.exists, List.mem_zipIdx_iff_getElem?]
  constructor
  · rintro ⟨o, pos, ho, e, he, producer, hproducer, rfl⟩
    exact ⟨o, e, ho, he, hproducer, rfl⟩
  · rintro ⟨o, e, ho, he, hproducer, hpipelined⟩
    refine ⟨o, d.consumer, ho, e, he, d.producer, hproducer, ?_⟩
    rw [← hpipelined]

theorem Sound.inRange_operatorDependencies (h : t.Sound) :
    Region.InRange t.operators.length t.operatorDependencies := by
  intro d hd
  obtain ⟨o, e, ho, -, hproducer, -⟩ := mem_operatorDependencies.mp hd
  have hpos := (h.staffed.operatorIndex e.producer d.producer).mp hproducer
  obtain ⟨p, hp, -⟩ := Option.map_eq_some_iff.mp hpos
  exact ⟨(List.getElem?_eq_some_iff.mp hp).1,
    (List.getElem?_eq_some_iff.mp ho).1⟩

/-- The inputs of an operator are edges to its vertex. -/
theorem Whole.edge_of_input (h : t.Whole) {o : Operator} {pos : Nat}
    {e : JobEdge} (ho : t.operators[pos]? = some o) (he : e ∈ o.inputs) :
    e ∈ t.graph.edges ∧ t.vertexAt pos = some e.target := by
  have hmem := List.mem_iff_getElem?.mpr ⟨pos, ho⟩
  obtain ⟨v, hv, hvid, hinputs⟩ := h.staffed.inputs_eq hmem
  rw [← hinputs] at he
  refine ⟨JobGraph.mem_edges.mpr ⟨v, hv, he⟩, ?_⟩
  rw [vertexAt, ho, Option.map_some, h.graph.target v hv e he, hvid]

/-- An edge is an input of the operator where its target stands. -/
theorem Whole.input_of_edge (h : t.Whole) {e : JobEdge} {pos : Nat}
    (he : e ∈ t.graph.edges) (hpos : t.vertexAt pos = some e.target) :
    ∃ o, t.operators[pos]? = some o ∧ e ∈ o.inputs := by
  obtain ⟨o, ho, hid, heo⟩ := h.exists_target he
  obtain ⟨pos', ho'⟩ := List.mem_iff_getElem?.mp ho
  have hpos' : t.vertexAt pos' = some e.target := by
    rw [vertexAt, ho', Option.map_some, hid]
  have heq : pos' = pos := h.staffed.operatorIndex.inj hpos' hpos
  exact ⟨o, heq ▸ ho', heo⟩

/-- Arcs between positions of operators are arcs between their vertices. -/
theorem Whole.arc_operators (h : t.Whole) {p q : Nat} {a b : VertexId}
    (hp : t.vertexAt p = some a) (hq : t.vertexAt q = some b) :
    Region.Arc t.operatorDependencies p q ↔ t.graph.VertexArc a b := by
  have hindex : ∀ k i, t.operatorIndex[k]? = some i ↔ t.vertexAt i = some k :=
    h.staffed.operatorIndex
  have hinj : ∀ {i : Nat} {k k' : VertexId}, t.vertexAt i = some k →
      t.vertexAt i = some k' → k = k' := fun hk hk' =>
    Option.some.inj (hk.symm.trans hk')
  constructor
  · rintro ⟨d, hd, hends⟩
    obtain ⟨o, e, ho, he, hproducer, hpipelined⟩ :=
      mem_operatorDependencies.mp hd
    obtain ⟨hgraph, htarget⟩ := h.edge_of_input ho he
    have hsource := (hindex _ _).mp hproducer
    -- A dependency is an arc both ways round if it is pipelined.
    rcases hends with ⟨rfl, rfl⟩ | ⟨hpipe, rfl, rfl⟩
    · exact ⟨e, hgraph, .inl ⟨hinj hsource hp, hinj htarget hq⟩⟩
    · refine ⟨e, hgraph, .inr ⟨?_, hinj htarget hp, hinj hsource hq⟩⟩
      rw [hpipelined, ResultKind.isPipelined] at hpipe
      simpa using hpipe
  · rintro ⟨e, he, ⟨rfl, rfl⟩ | ⟨hkind, rfl, rfl⟩⟩
    · obtain ⟨o, ho, heo⟩ := h.input_of_edge he hq
      exact ⟨⟨p, q, e.kind.isPipelined⟩, mem_operatorDependencies.mpr
        ⟨o, e, ho, heo, (hindex _ _).mpr hp, rfl⟩, .inl ⟨rfl, rfl⟩⟩
    · obtain ⟨o, ho, heo⟩ := h.input_of_edge he hp
      refine ⟨⟨q, p, e.kind.isPipelined⟩, mem_operatorDependencies.mpr
        ⟨o, e, ho, heo, (hindex _ _).mpr hq, rfl⟩, .inr ⟨?_, rfl, rfl⟩⟩
      rw [hkind]
      rfl

/-- Every vertex that an arc touches has an operator. -/
theorem Whole.exists_vertexAt (h : t.Whole) {a b : VertexId}
    (harc : t.graph.VertexArc a b) :
    (∃ p, t.vertexAt p = some a) ∧ ∃ q, t.vertexAt q = some b := by
  have hends : ∀ e ∈ t.graph.edges, (∃ p, t.vertexAt p = some e.producer) ∧
      ∃ q, t.vertexAt q = some e.target := by
    intro e he
    obtain ⟨-, ⟨o, ho, hid⟩, o', ho', hid'⟩ :=
      h.edge_of_mem (h.edges_perm.mem_iff.mpr he)
    obtain ⟨q, hq⟩ := List.mem_iff_getElem?.mp ho
    obtain ⟨p, hp⟩ := List.mem_iff_getElem?.mp ho'
    exact ⟨⟨p, by simp [vertexAt, hp, hid']⟩, q, by simp [vertexAt, hq, hid]⟩
  obtain ⟨e, he, ⟨rfl, rfl⟩ | ⟨-, rfl, rfl⟩⟩ := harc
  · exact hends e he
  · exact (hends e he).symm

/-- Positions of operators lead to each other as their vertices do. -/
theorem Whole.leads_operators (h : t.Whole) {p q : Nat} {a b : VertexId}
    (hp : t.vertexAt p = some a) (hq : t.vertexAt q = some b) :
    Region.Leads t.operatorDependencies p q ↔
      Relation.ReflTransGen t.graph.VertexArc a b := by
  constructor
  · intro hr
    induction hr generalizing b with
    | refl =>
      rw [hp, Option.some.injEq] at hq
      exact hq ▸ .refl
    | tail hpx harc ih =>
      rename_i x y
      -- No arc leaves the range, so there is a vertex at every step.
      obtain ⟨o, ho, -⟩ := Option.map_eq_some_iff.mp hp
      have hx := Region.Leads.lt h.inRange_operatorDependencies
        (List.getElem?_eq_some_iff.mp ho).1 hpx
      have hvx : t.vertexAt x = some t.operators[x].id := by
        simp [vertexAt, hx]
      exact (ih hvx).tail ((h.arc_operators hvx hq).mp harc)
  · intro hr
    induction hr generalizing q with
    | refl =>
      have heq : p = q := h.staffed.operatorIndex.inj hp hq
      exact heq ▸ .refl
    | tail _ harc ih =>
      obtain ⟨⟨x, hx⟩, -⟩ := h.exists_vertexAt harc
      exact (ih hx).tail ((h.arc_operators hx hq).mpr harc)

/-! ## Dependencies between tasks -/

theorem indexes_placesIn {tasks : List Nat} (h : tasks.Nodup) :
    Indexes (placesIn tasks) (tasks[·]?) := by
  have hnodup : (tasks.map id).Nodup := by simpa using h
  have hindex := Indexes.foldl_insert hnodup
  intro k i
  rw [placesIn]
  have hki := hindex k i
  simpa using hki

theorem mem_taskDependencies {tasks : List Nat} {d : Dependency} :
    d ∈ t.taskDependencies tasks ↔ ∃ (i g p : Nat) (group : PartitionGroup)
      (x : Output), tasks[d.consumer]? = some i ∧ g ∈ t.consumedBy i ∧
      t.groups[g]? = some group ∧ p ∈ t.partitionsIn g ∧
      t.outputAt p = some x ∧
      (placesIn tasks)[x.producer]? = some d.producer ∧
      d.pipelined = group.kind.isPipelined := by
  simp only [taskDependencies, List.mem_flatMap, List.mem_filterMap,
    Option.map_eq_some_iff, Prod.exists, List.mem_zipIdx_iff_getElem?,
    groupsOf, partitionsOf]
  constructor
  · rintro ⟨i, place, hi, group, ⟨g, hg, hgroup⟩, part, ⟨p, hp, hpart⟩,
      producer, hproducer, rfl⟩
    exact ⟨i, g, p, group, ⟨part.id, part.kind, part.producer⟩, hi, hg,
      hgroup, by simpa [partitionsIn, hgroup] using hp,
      by simp [outputAt, hpart], hproducer, rfl⟩
  · rintro ⟨i, g, p, group, x, hi, hg, hgroup, hp, hx, hproducer,
      hpipelined⟩
    obtain ⟨part, hpart, rfl⟩ := Option.map_eq_some_iff.mp hx
    refine ⟨i, d.consumer, hi, group, ⟨g, hg, hgroup⟩, part, ⟨p, ?_, hpart⟩,
      d.producer, hproducer, ?_⟩
    · simpa [partitionsIn, hgroup] using hp
    · rw [← hpipelined]

theorem inRange_taskDependencies {tasks : List Nat} (h : tasks.Nodup) :
    Region.InRange tasks.length (t.taskDependencies tasks) := by
  intro d hd
  obtain ⟨i, g, p, group, x, hi, -, -, -, -, hproducer, -⟩ :=
    mem_taskDependencies.mp hd
  have hplace := (indexes_placesIn h _ _).mp hproducer
  exact ⟨(List.getElem?_eq_some_iff.mp hplace).1,
    (List.getElem?_eq_some_iff.mp hi).1⟩

/-- Arcs between places in a list are arcs between the tasks there. -/
theorem Whole.arc_tasks (h : t.Whole) {tasks : List Nat}
    (hnodup : tasks.Nodup) {x y i j : Nat} (hx : tasks[x]? = some i)
    (hy : tasks[y]? = some j) :
    Region.Arc (t.taskDependencies tasks) x y ↔ t.TaskArc i j := by
  have hplaces := indexes_placesIn hnodup
  have hinj : ∀ {k a b : Nat}, tasks[k]? = some a → tasks[k]? = some b →
      a = b := fun ha hb => Option.some.inj (ha.symm.trans hb)
  constructor
  · rintro ⟨d, hd, hends⟩
    obtain ⟨k, g, p, group, out, hk, hg, hgroup, hp, hout, hproducer,
      hpipelined⟩ := mem_taskDependencies.mp hd
    have hplace := (hplaces _ _).mp hproducer
    rcases hends with ⟨rfl, rfl⟩ | ⟨hpipe, rfl, rfl⟩
    · rw [hinj hk hy] at hg
      exact .inl ⟨out.kind, g, hg, p, hp, out, hout, hinj hplace hx, rfl⟩
    · rw [hinj hk hx] at hg
      refine .inr ⟨g, hg, p, hp, out, hout, hinj hplace hy, ?_⟩
      rw [← h.kind_of_mem hgroup hp hout]
      rw [hpipelined, ResultKind.isPipelined] at hpipe
      simpa using hpipe
  · have hdep : ∀ {a b i j : Nat} {kind : ResultKind},
        tasks[a]? = some i → tasks[b]? = some j → t.Feeds i j kind →
        ⟨a, b, kind.isPipelined⟩ ∈ t.taskDependencies tasks := by
      rintro a b i j kind ha hb ⟨g, hg, p, hp, out, hout, rfl, rfl⟩
      have hlt := lt_of_mem_partitionsIn hp
      have hgroup : t.groups[g]? = some t.groups[g] := by simp [hlt]
      exact mem_taskDependencies.mpr ⟨j, g, p, t.groups[g], out, hb, hg,
        hgroup, hp, hout, (hplaces _ _).mpr ha,
        by rw [h.kind_of_mem hgroup hp hout]⟩
    rintro (⟨kind, hf⟩ | hf)
    · exact ⟨_, hdep hx hy hf, .inl ⟨rfl, rfl⟩⟩
    · exact ⟨_, hdep hy hx hf, .inr ⟨rfl, rfl, rfl⟩⟩

end Topology

end ControlPlane
