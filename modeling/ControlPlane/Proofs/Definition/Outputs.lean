import Mathlib
import ControlPlane.Proofs.Definition.Loaded
import ControlPlane.Proofs.JobGraph.Outputs
import ControlPlane.Proofs.Topology.Readers

/-!
# Outputs by number

An output of a vertex is known by its number among the edges that leave the
vertex, in the order they are written in. Edges are added in this order, and
each puts its dataset behind those that its source already has. So the
dataset at a number is that of the edge with this number, also where the
edges of several vertices are mixed.
-/

namespace ControlPlane

namespace JobDefinition

/-- The edges that leave a vertex, in order. -/
def edgesFrom (d : JobDefinition) (name : String) : List EdgeSpec :=
  d.edges.filter (·.source = name)

/-- An edge wires a subtask of its source to one of its target. -/
def Wires (d : JobDefinition) (e : EdgeSpec) (k l : Nat) : Prop :=
  ∃ v ∈ d.vertices, ∃ w ∈ d.vertices, v.name = e.source ∧ w.name = e.target ∧
    k < d.parallelismOf v ∧ l < d.parallelismOf w ∧
    (e.pattern = .pointwise →
      k ∈ Wire.share (d.parallelismOf v) (d.parallelismOf w) l)

/-- The vertices list the datasets of the edges that leave them, in order. -/
def ListsOutputs (supply : IdSupply) (es : List (EdgeSpec × Nat))
    (job : LoadedJob) : Prop :=
  ∀ v ∈ job.graph.vertices, v.produced =
    (es.filter (·.1.source = v.name)).map fun entry => supply.dataSet entry.2

variable {d : JobDefinition} {supply : IdSupply} {job : LoadedJob}
  {es : List (EdgeSpec × Nat)}

/-! ## Adding the edges -/

/-- Without edges there are no datasets. -/
theorem Drawn.listsOutputs_nil
    (h : d.Drawn supply d.vertices.zipIdx [] job) :
    ListsOutputs supply [] job := by
  intro v hv
  rw [List.filter_nil, List.map_nil, List.eq_nil_iff_forall_not_mem]
  intro dataSet hd
  obtain ⟨e, he, -⟩ := h.built.recorded.edge v hv dataSet hd
  obtain ⟨entry, hentry, -⟩ := (h.edges e).mp he
  cases hentry

/-- Both ends of an edge that is added are known. -/
theorem of_addEdge_eq_ok {spec : EdgeSpec} {n : Nat} {job' : LoadedJob}
    (hok : LoadedJob.addEdge supply job (spec, n) = .ok job') :
    ∃ producer target, job.vertexIds[spec.source]? = some producer ∧
      job.vertexIds[spec.target]? = some target ∧
      job.graph.connect (supply.dataSet n) producer target spec.pattern
        spec.kind = .ok job'.graph := by
  obtain ⟨producer, hproducer, hok⟩ := bind_eq_ok_iff.mp hok
  obtain ⟨target, htarget, hok⟩ := bind_eq_ok_iff.mp hok
  obtain ⟨graph, hgraph, hret⟩ := bind_eq_ok_iff.mp hok
  cases hret
  exact ⟨producer, target, vertexId_eq_ok_iff.mp hproducer,
    vertexId_eq_ok_iff.mp htarget, hgraph⟩

/-- An edge that is added puts its dataset behind those of its source. -/
theorem ListsOutputs.addEdge (hlists : ListsOutputs supply es job)
    (h : d.Drawn supply d.vertices.zipIdx es job)
    (hfresh : supply.Fresh d.vertices.length d.edges.length)
    {entry : EdgeSpec × Nat} {job' : LoadedJob}
    (hok : LoadedJob.addEdge supply job entry = .ok job') :
    ListsOutputs supply (es ++ [entry]) job' := by
  obtain ⟨spec, n⟩ := entry
  obtain ⟨producer, target, hproducer, -, hconnect⟩ := of_addEdge_eq_ok hok
  obtain ⟨-, hvertices⟩ := h.built.wellFormed.of_connect_eq_ok
    (e := ⟨supply.dataSet n, producer, target, spec.pattern, spec.kind⟩)
    hconnect
  rw [ListsOutputs, hvertices, List.forall_mem_map]
  intro v hv
  -- The source is the vertex with its id, as names and ids match.
  have hsource : v.id = producer ↔ spec.source = v.name := by
    have hname := (h.vertexIds_name hv).1
    constructor
    · rintro rfl
      exact h.name_inj hfresh hproducer hname
    · rintro hsource
      rw [← hsource, hproducer] at hname
      exact (Option.some.inj hname).symm
  simp only [JobVertex.connected, hlists v hv, List.filter_append,
    List.map_append, hsource]
  by_cases hs : spec.source = v.name <;> simp [hs]

/-- What is loaded lists the datasets in order. -/
theorem listsOutputs_of_load (hvalid : d.Valid)
    (hfresh : supply.Fresh d.vertices.length d.edges.length)
    (hload : d.load supply = .ok job) :
    ListsOutputs supply d.edges.zipIdx job := by
  obtain ⟨start, hstart, h⟩ := exists_addVertices hvalid hfresh
  rw [hstart] at hload
  have hstep : ∀ pre entry post, d.edges.zipIdx = pre ++ entry :: post →
      ∀ job job', (d.Drawn supply d.vertices.zipIdx pre job ∧
        ListsOutputs supply pre job) →
      LoadedJob.addEdge supply job entry = .ok job' →
      d.Drawn supply d.vertices.zipIdx (pre ++ [entry]) job' ∧
        ListsOutputs supply (pre ++ [entry]) job' := by
    rintro pre ⟨spec, n⟩ post hes job job' ⟨h, hlists⟩ hok
    refine ⟨?_, hlists.addEdge h hfresh hok⟩
    rcases h.addEdge_cases hvalid hfresh hes with
      ⟨-, job1, hok1, hdrawn⟩ | ⟨-, v, herror⟩
    · cases hok1.symm.trans hok
      exact hdrawn
    · cases herror.symm.trans hok
  exact (foldlM_ok_induction (P := fun pre job =>
    d.Drawn supply d.vertices.zipIdx pre job ∧ ListsOutputs supply pre job)
    hstep ⟨h, h.listsOutputs_nil⟩ hload).2

/-! ## Outputs of a vertex -/

theorem map_fst_filter_zipIdx (name : String) :
    (d.edges.zipIdx.filter (·.1.source = name)).map Prod.fst =
      d.edgesFrom name := by
  rw [edgesFrom]
  conv_rhs => rw [← List.zipIdx_map_fst 0 d.edges, List.filter_map]
  rfl

section Listed

variable (hlists : ListsOutputs supply d.edges.zipIdx job) {v : JobVertex}
  (hv : v ∈ job.graph.vertices)

include hlists hv

theorem ListsOutputs.length_eq :
    v.produced.length = (d.edgesFrom v.name).length := by
  rw [hlists v hv, ← map_fst_filter_zipIdx, List.length_map, List.length_map]

/-- The dataset at a number is that of the edge with this number. -/
theorem ListsOutputs.exists_edge
    (h : d.Drawn supply d.vertices.zipIdx d.edges.zipIdx job)
    (hvalid : d.Valid) {output : Nat} {spec : EdgeSpec}
    (hspec : (d.edgesFrom v.name)[output]? = some spec) :
    ∃ n, ∃ e ∈ job.graph.edges, v.produced[output]? = some e.source ∧
      spec.Draws n supply job.vertexIds e ∧ e.producer = v.id := by
  rw [← map_fst_filter_zipIdx, List.getElem?_map] at hspec
  obtain ⟨⟨spec, n⟩, hentry, rfl⟩ := Option.map_eq_some_iff.mp hspec
  obtain ⟨hmem, hsource⟩ := List.mem_filter.mp (List.mem_of_getElem? hentry)
  obtain ⟨producer, target, hproducer, htarget⟩ :=
    h.exists_ends hvalid (List.fst_mem_of_mem_zipIdx hmem)
  have hdraws : spec.Draws n supply job.vertexIds
      ⟨supply.dataSet n, producer, target, spec.pattern, spec.kind⟩ :=
    (draws_iff hproducer htarget).mpr rfl
  have hname := (h.vertexIds_name hv).1
  refine ⟨n, _, (h.edges _).mpr ⟨_, hmem, hdraws⟩, ?_, hdraws, ?_⟩
  · rw [hlists v hv, List.getElem?_map, hentry]
    rfl
  · rw [← of_decide_eq_true hsource, hproducer] at hname
    exact Option.some.inj hname

/-- A dataset is listed at one place. -/
theorem ListsOutputs.place_inj {vertices : Nat}
    (hfresh : supply.Fresh vertices d.edges.length) {w : JobVertex}
    (hw : w ∈ job.graph.vertices) {m n : Nat} {dataSet : DataSetId}
    (hm : v.produced[m]? = some dataSet)
    (hn : w.produced[n]? = some dataSet) : v.name = w.name ∧ m = n := by
  rw [hlists v hv, List.getElem?_map] at hm
  rw [hlists w hw, List.getElem?_map] at hn
  obtain ⟨⟨spec, i⟩, hi, rfl⟩ := Option.map_eq_some_iff.mp hm
  obtain ⟨⟨spec', j⟩, hj, hsame⟩ := Option.map_eq_some_iff.mp hn
  obtain ⟨hmem, hv⟩ := List.mem_filter.mp (List.mem_of_getElem? hi)
  obtain ⟨hmem', hw⟩ := List.mem_filter.mp (List.mem_of_getElem? hj)
  obtain rfl : j = i := hfresh.dataSet j (List.snd_lt_of_mem_zipIdx hmem')
    i (List.snd_lt_of_mem_zipIdx hmem) hsame
  rw [List.mem_zipIdx_iff_getElem?] at hmem hmem'
  obtain rfl : spec' = spec := Option.some.inj (hmem'.symm.trans hmem)
  have hname : v.name = w.name :=
    (of_decide_eq_true hv).symm.trans (of_decide_eq_true hw)
  have hnodup : d.edges.zipIdx.Nodup := by
    refine List.Nodup.of_map Prod.snd ?_
    rw [List.zipIdx_map_snd]
    exact List.nodup_range'
  refine ⟨hname, (List.getElem?_inj (List.getElem?_eq_some_iff.mp hi).1
    (hnodup.filter _)).mp ?_⟩
  rw [hi, hname, hj]

end Listed

/-! ## Wires -/

theorem Drawn.parallelismOf_eq
    (h : d.Drawn supply d.vertices.zipIdx es job) (hvalid : d.Valid)
    {v : VertexSpec} (hv : v ∈ d.vertices) {id : VertexId}
    (hid : job.vertexIds[v.name]? = some id) :
    job.graph.parallelismOf id = d.parallelismOf v := by
  obtain ⟨w, hw, hwid, -, hparallelism⟩ := h.exists_vertex_of_mem hvalid hv
  obtain rfl := Option.some.inj (hwid.symm.trans hid)
  rw [h.built.wellFormed.parallelismOf_eq hw, hparallelism]

/-- The wires of the job graph are those of the definition. -/
theorem Drawn.wires_iff (h : d.Drawn supply d.vertices.zipIdx es job)
    (hvalid : d.Valid) {spec : EdgeSpec} (hspec : spec ∈ d.edges) {n : Nat}
    {e : JobEdge} (hdraws : spec.Draws n supply job.vertexIds e) {k l : Nat} :
    d.Wires spec k l ↔ k < job.graph.parallelismOf e.producer ∧
      l < job.graph.parallelismOf e.target ∧
      (e.pattern = .pointwise → k ∈ Wire.share
        (job.graph.parallelismOf e.producer)
        (job.graph.parallelismOf e.target) l) := by
  obtain ⟨v, hv, hvname⟩ := hvalid.ends spec hspec spec.source (by simp)
  obtain ⟨w, hw, hwname⟩ := hvalid.ends spec hspec spec.target (by simp)
  rw [h.parallelismOf_eq hvalid hv (hvname ▸ hdraws.producer),
    h.parallelismOf_eq hvalid hw (hwname ▸ hdraws.target), hdraws.pattern]
  constructor
  · rintro ⟨v', hv', w', hw', hvname', hwname', hwires⟩
    obtain rfl : v' = v := List.inj_on_of_nodup_map hvalid.names_nodup hv' hv
      (hvname'.trans hvname.symm)
    obtain rfl : w' = w := List.inj_on_of_nodup_map hvalid.names_nodup hw' hw
      (hwname'.trans hwname.symm)
    exact hwires
  · exact fun hwires => ⟨v, hv, w, hw, hvname, hwname, hwires⟩

end JobDefinition

end ControlPlane
