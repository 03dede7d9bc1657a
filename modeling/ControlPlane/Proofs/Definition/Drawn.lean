import Mathlib
import ControlPlane.Definition.Load
import ControlPlane.Proofs.Definition.Valid
import ControlPlane.Proofs.JobGraph.Builder

/-!
# The job graph of a definition

A definition is loaded by adding its vertices and then its edges, one by one
under fresh ids. The graph then has the vertices of the definition, and an
edge for each of its edges. Of a valid definition, loading refuses an edge
from a vertex to itself and nothing else.
-/

namespace ControlPlane

/-- The first ids of a supply are different. -/
structure IdSupply.Fresh (supply : IdSupply) (vertices dataSets : Nat) :
    Prop where
  vertex : ∀ m < vertices, ∀ n < vertices,
    supply.vertex m = supply.vertex n → m = n
  dataSet : ∀ m < dataSets, ∀ n < dataSets,
    supply.dataSet m = supply.dataSet n → m = n

/-- A vertex without its edges. -/
def JobVertex.bare (v : JobVertex) : JobVertex :=
  { v with inputs := [], produced := [] }

/-- The edge of a graph that an edge between names stands for. -/
structure EdgeSpec.Draws (spec : EdgeSpec) (number : Nat) (supply : IdSupply)
    (ids : Std.TreeMap String VertexId) (e : JobEdge) : Prop where
  source : e.source = supply.dataSet number
  producer : ids[spec.source]? = some e.producer
  target : ids[spec.target]? = some e.target
  pattern : e.pattern = spec.pattern
  kind : e.kind = spec.kind

namespace JobDefinition

/-- The vertex that a vertex of a definition stands for, without edges. -/
def vertexOf (d : JobDefinition) (supply : IdSupply)
    (entry : VertexSpec × Nat) : JobVertex where
  id := supply.vertex entry.2
  name := entry.1.name
  parallelism := d.parallelismOf entry.1
  coLocationGroup := entry.1.coLocationGroup
  snapshotGroup := entry.1.snapshotGroup

/-- A job has the given vertices and edges of a definition. -/
structure Drawn (d : JobDefinition) (supply : IdSupply)
    (vs : List (VertexSpec × Nat)) (es : List (EdgeSpec × Nat))
    (job : LoadedJob) : Prop where
  built : job.graph.Built
  vertices : job.graph.vertices.map (·.bare) = vs.map (d.vertexOf supply)
  edges : ∀ e, e ∈ job.graph.edges ↔
    ∃ entry ∈ es, entry.1.Draws entry.2 supply job.vertexIds e
  /-- The names find the ids of the vertices. -/
  vertexIds : ∀ name id, job.vertexIds[name]? = some id ↔
    ∃ entry ∈ vs, entry.1.name = name ∧ supply.vertex entry.2 = id
  states : job.states = d.states

end JobDefinition

/-! ## Numbered entries -/

section Entries

variable {α : Type*} {xs : List α} {pre post : List (α × Nat)} {x : α}
  {n : Nat}

/-- The entries in front of one have other numbers, and all numbers are below
the length. -/
theorem number_of_zipIdx (h : xs.zipIdx = pre ++ (x, n) :: post) :
    n < xs.length ∧ ∀ entry ∈ pre, entry.2 < xs.length ∧ entry.2 ≠ n := by
  have hlt : ∀ entry ∈ xs.zipIdx, entry.2 < xs.length :=
    fun entry hentry => List.snd_lt_of_mem_zipIdx hentry
  rw [h] at hlt
  have hnodup : (xs.zipIdx.map Prod.snd).Nodup := by
    rw [List.zipIdx_map_snd]
    exact List.nodup_range'
  rw [h, List.map_append, List.nodup_append] at hnodup
  refine ⟨hlt (x, n) (by simp), fun entry hentry =>
    ⟨hlt entry (by simp [hentry]), ?_⟩⟩
  exact hnodup.2.2 _ (List.mem_map_of_mem hentry) _ (by simp)

/-- The entries in front of one have other keys if all keys are different. -/
theorem key_of_zipIdx {κ : Type*} {key : α → κ}
    (hkeys : (xs.map key).Nodup) (h : xs.zipIdx = pre ++ (x, n) :: post) :
    ∀ entry ∈ pre, key entry.1 ≠ key x := by
  rw [← List.zipIdx_map_fst 0 xs, h, List.map_map, List.map_append,
    List.nodup_append] at hkeys
  exact fun entry hentry =>
    hkeys.2.2 _ (List.mem_map_of_mem hentry) _ (by simp)

end Entries

/-! ## Adding a vertex -/

namespace JobGraph

/-- The last vertex can be changed. -/
theorem exists_updateLast {g : JobGraph} (hg : g.Built) {vs : List JobVertex}
    {v : JobVertex} (hvs : g.vertices = vs ++ [v]) {f : JobVertex → JobVertex}
    (hf : ∀ g', g.updateVertex v.id f = .ok g' → g'.Built) :
    ∃ g', g.updateVertex v.id f = .ok g' ∧ g'.Built ∧
      g'.vertices = vs ++ [f v] := by
  have hpos : g.position v.id = .ok vs.length := by
    rw [hg.wellFormed.position_eq_ok, idAt, hvs]
    simp
  have hok : g.updateVertex v.id f =
      .ok { g with vertices := g.vertices.modify vs.length f } := by
    rw [updateVertex, hpos]
    rfl
  refine ⟨_, hok, hf _ hok, ?_⟩
  have hlt : vs.length < (vs ++ [v]).length := by simp
  rw [hvs, List.modify_eq_take_cons_drop hlt]
  simp

end JobGraph

namespace JobDefinition

variable {d : JobDefinition} {supply : IdSupply} {job : LoadedJob}

/-- The two groups of a vertex are set one after the other. -/
theorem addVertex_eq (spec : VertexSpec) (n : Nat) :
    d.addVertex supply job (spec, n) =
      Except.bind (match spec.coLocationGroup with
        | some group => (job.graph.addVertex (supply.vertex n) spec.name
            (d.parallelismOf spec)).setCoLocationGroup (supply.vertex n) group
        | none => .ok (job.graph.addVertex (supply.vertex n) spec.name
            (d.parallelismOf spec))) fun g1 =>
      Except.bind (match spec.snapshotGroup with
        | some group => g1.setSnapshotGroup (supply.vertex n) group
        | none => .ok g1) fun graph =>
      .ok { job with
        graph
        vertexIds := job.vertexIds.insert spec.name (supply.vertex n) } := by
  obtain ⟨name, parallelism, coLocation, snapshot⟩ := spec
  cases coLocation <;> cases snapshot <;> rfl

theorem exists_addVertex (d : JobDefinition) (hjob : job.graph.Built)
    {spec : VertexSpec} {n : Nat}
    (fresh : ∀ v ∈ job.graph.vertices, v.id ≠ supply.vertex n) :
    ∃ graph, d.addVertex supply job (spec, n) = .ok { job with
        graph
        vertexIds := job.vertexIds.insert spec.name (supply.vertex n) } ∧
      graph.Built ∧
      graph.vertices = job.graph.vertices ++ [d.vertexOf supply (spec, n)] := by
  rw [addVertex_eq, vertexOf]
  have hadded := JobGraph.Built.addVertex spec.name (d.parallelismOf spec)
    hjob fresh
  obtain ⟨g1, hg1, hbuilt1, hvs1⟩ : ∃ g1,
      (match spec.coLocationGroup with
        | some group => (job.graph.addVertex (supply.vertex n) spec.name
            (d.parallelismOf spec)).setCoLocationGroup (supply.vertex n) group
        | none => Except.ok (job.graph.addVertex (supply.vertex n) spec.name
            (d.parallelismOf spec))) = .ok g1 ∧ g1.Built ∧
        g1.vertices = job.graph.vertices ++
          [{ id := supply.vertex n, name := spec.name,
             parallelism := d.parallelismOf spec,
             coLocationGroup := spec.coLocationGroup }] := by
    cases spec.coLocationGroup with
    | none => exact ⟨_, rfl, hadded, rfl⟩
    | some group =>
      exact JobGraph.exists_updateLast hadded rfl
        fun g' (h : JobGraph.setCoLocationGroup _ _ group = .ok g') =>
          .setCoLocationGroup hadded h
  rw [hg1, Except.bind]
  -- The vertex still is the last one when its second group is set.
  cases spec.snapshotGroup with
  | none => exact ⟨g1, rfl, hbuilt1, hvs1⟩
  | some group =>
    obtain ⟨g2, hg2, hbuilt2, hvs2⟩ :=
      JobGraph.exists_updateLast hbuilt1 hvs1
        (f := ({ · with snapshotGroup := some group }))
        fun g' (h : JobGraph.setSnapshotGroup _ _ group = .ok g') =>
          .setSnapshotGroup hbuilt1 h
    refine ⟨g2, ?_, hbuilt2, hvs2⟩
    dsimp only
    rw [JobGraph.setSnapshotGroup, hg2]
    rfl

/-- A vertex of the graph stands for one of the definition. -/
theorem Drawn.exists_entry {vs : List (VertexSpec × Nat)}
    {es : List (EdgeSpec × Nat)} (h : d.Drawn supply vs es job)
    {v : JobVertex} (hv : v ∈ job.graph.vertices) :
    ∃ entry ∈ vs, d.vertexOf supply entry = v.bare := by
  rw [← List.mem_map, ← h.vertices]
  exact List.mem_map_of_mem hv

/-- The id of the next vertex is not in use. -/
theorem Drawn.vertex_ne {pre post : List (VertexSpec × Nat)}
    (h : d.Drawn supply pre [] job) {dataSets : Nat}
    (hfresh : supply.Fresh d.vertices.length dataSets) {spec : VertexSpec}
    {n : Nat} (hvs : d.vertices.zipIdx = pre ++ (spec, n) :: post) :
    ∀ v ∈ job.graph.vertices, v.id ≠ supply.vertex n := by
  intro v hv hid
  obtain ⟨hlt, hpre⟩ := number_of_zipIdx hvs
  obtain ⟨entry, hentry, hdrawn⟩ := h.exists_entry hv
  obtain ⟨hentrylt, hne⟩ := hpre entry hentry
  have hentryid : supply.vertex entry.2 = v.id :=
    congrArg JobVertex.id hdrawn
  exact hne (hfresh.vertex _ hentrylt _ hlt (hentryid.trans hid))

theorem Drawn.addVertex {pre post : List (VertexSpec × Nat)}
    (h : d.Drawn supply pre [] job) (hvalid : d.Valid) {dataSets : Nat}
    (hfresh : supply.Fresh d.vertices.length dataSets) {spec : VertexSpec}
    {n : Nat} (hvs : d.vertices.zipIdx = pre ++ (spec, n) :: post) :
    ∃ job', d.addVertex supply job (spec, n) = .ok job' ∧
      d.Drawn supply (pre ++ [(spec, n)]) [] job' := by
  obtain ⟨graph, hok, hbuilt, hgraph⟩ := exists_addVertex d h.built
    (h.vertex_ne hfresh hvs)
  refine ⟨_, hok, hbuilt, ?_, ?_, ?_, h.states⟩
  · rw [hgraph, List.map_append, List.map_append, h.vertices]
    rfl
  · intro e
    have hnone := h.edges e
    rw [JobGraph.edges, hgraph, List.flatMap_append, List.mem_append]
    simp only [List.not_mem_nil, false_and, exists_false, iff_false] at hnone ⊢
    rintro (he | he)
    · exact hnone he
    · cases he
  · intro name id
    have hnames := key_of_zipIdx hvalid.names_nodup hvs
    rw [Std.TreeMap.getElem?_insert]
    -- The new vertex is found by its own name, and the others as before.
    by_cases hname : spec.name = name
    · subst hname
      rw [if_pos Std.ReflCmp.compare_self]
      simp only [List.mem_append, List.mem_singleton, Option.some.injEq]
      constructor
      · exact fun hid => ⟨(spec, n), .inr rfl, rfl, hid⟩
      · rintro ⟨entry, hentry | rfl, hname, hid⟩
        · exact absurd hname (hnames entry hentry)
        · exact hid
    · rw [if_neg (by simpa using hname), h.vertexIds]
      simp only [List.mem_append, List.mem_singleton]
      constructor
      · rintro ⟨entry, hentry, hrest⟩
        exact ⟨entry, .inl hentry, hrest⟩
      · rintro ⟨entry, hentry | rfl, hentryname, hid⟩
        · exact ⟨entry, hentry, hentryname, hid⟩
        · exact absurd hentryname hname

end JobDefinition

/-! ## Adding an edge -/

namespace JobGraph

theorem map_bare_modify {vs : List JobVertex} {pos : Nat}
    {f : JobVertex → JobVertex} (hf : ∀ v, (f v).bare = v.bare) :
    (vs.modify pos f).map (·.bare) = vs.map (·.bare) := by
  apply List.ext_getElem?
  intro i
  rw [List.getElem?_map, List.getElem?_map, List.getElem?_modify]
  by_cases hi : pos = i <;> cases vs[i]? <;> simp [hi, hf]

/-- Two different vertices can be connected. -/
theorem exists_connect {g : JobGraph} (hg : g.Built) (edge : JobEdge)
    (hne : edge.producer ≠ edge.target)
    (hproducer : ∃ v ∈ g.vertices, v.id = edge.producer)
    (htarget : ∃ v ∈ g.vertices, v.id = edge.target)
    (fresh : ∀ e ∈ g.edges, e.source ≠ edge.source) :
    ∃ g', g.connect edge.source edge.producer edge.target edge.pattern
        edge.kind = .ok g' ∧ g'.Built ∧
      g'.vertices.map (·.bare) = g.vertices.map (·.bare) ∧
      g'.edges.Perm (edge :: g.edges) := by
  obtain ⟨source, -, hsource⟩ := hg.wellFormed.exists_position hproducer
  obtain ⟨sink, hlt, hsink⟩ := hg.wellFormed.exists_position htarget
  let produce (v : JobVertex) : JobVertex :=
    { v with produced := v.produced ++ [edge.source] }
  let consume (v : JobVertex) : JobVertex :=
    { v with inputs := v.inputs ++ [edge] }
  have hok : g.connect edge.source edge.producer edge.target edge.pattern
      edge.kind = .ok { g with
        vertices := (g.vertices.modify source produce).modify sink
          consume } := by
    simp only [connect, if_neg hne, hsource, hsink]
    rfl
  refine ⟨_, hok, .connect hg fresh hok, ?_, ?_⟩
  · exact (map_bare_modify (f := consume) fun _ => rfl).trans
      (map_bare_modify (f := produce) fun _ => rfl)
  · have hperm : (((g.vertices.modify source produce).modify sink
        consume).flatMap (·.inputs)).Perm _ :=
      perm_flatMap_inputs edge (by simpa using hlt)
    rw [flatMap_inputs_modify source (f := produce) fun _ => rfl] at hperm
    exact hperm

end JobGraph

namespace JobDefinition

variable {d : JobDefinition} {supply : IdSupply} {job : LoadedJob}
  {es : List (EdgeSpec × Nat)}

/-- Every vertex of a definition has become one of the graph. -/
theorem Drawn.exists_vertex {vs : List (VertexSpec × Nat)}
    (h : d.Drawn supply vs es job) {name : String} {id : VertexId}
    (hid : job.vertexIds[name]? = some id) :
    ∃ entry ∈ vs, entry.1.name = name ∧ ∃ v ∈ job.graph.vertices,
      v.id = id ∧ v.bare = d.vertexOf supply entry := by
  obtain ⟨entry, hentry, hname, rfl⟩ := (h.vertexIds name id).mp hid
  have hmem := List.mem_map_of_mem (f := d.vertexOf supply) hentry
  rw [← h.vertices] at hmem
  obtain ⟨v, hv, hbare⟩ := List.mem_map.mp hmem
  exact ⟨entry, hentry, hname, v, hv, congrArg JobVertex.id hbare, hbare⟩

/-- The names of vertices are found. -/
theorem Drawn.exists_vertexId (h : d.Drawn supply d.vertices.zipIdx es job)
    {v : VertexSpec} (hv : v ∈ d.vertices) :
    ∃ id, job.vertexIds[v.name]? = some id := by
  obtain ⟨n, hn⟩ := List.mem_iff_getElem?.mp hv
  exact ⟨_, (h.vertexIds v.name _).mpr
    ⟨(v, n), List.mem_zipIdx_iff_getElem?.mpr hn, rfl, rfl⟩⟩

/-- No two names find one id. -/
theorem Drawn.name_inj (h : d.Drawn supply d.vertices.zipIdx es job)
    {dataSets : Nat} (hfresh : supply.Fresh d.vertices.length dataSets)
    {a b : String} {id : VertexId} (ha : job.vertexIds[a]? = some id)
    (hb : job.vertexIds[b]? = some id) : a = b := by
  obtain ⟨⟨v, n⟩, hv, rfl, hn⟩ := (h.vertexIds a id).mp ha
  obtain ⟨⟨w, m⟩, hw, rfl, hm⟩ := (h.vertexIds b id).mp hb
  have hnm : n = m := hfresh.vertex n (List.snd_lt_of_mem_zipIdx hv)
    m (List.snd_lt_of_mem_zipIdx hw) (hn.trans hm.symm)
  subst hnm
  rw [List.mem_zipIdx_iff_getElem?] at hv hw
  rw [Option.some.inj (hv.symm.trans hw)]

/-- Both ends of an edge are found. -/
theorem Drawn.exists_ends (h : d.Drawn supply d.vertices.zipIdx es job)
    (hvalid : d.Valid) {spec : EdgeSpec} (hspec : spec ∈ d.edges) :
    ∃ producer target, job.vertexIds[spec.source]? = some producer ∧
      job.vertexIds[spec.target]? = some target := by
  have hend : ∀ name ∈ [spec.source, spec.target],
      ∃ id, job.vertexIds[name]? = some id := by
    intro name hname
    obtain ⟨v, hv, rfl⟩ := hvalid.ends spec hspec name hname
    exact h.exists_vertexId hv
  obtain ⟨producer, hproducer⟩ := hend spec.source (by simp)
  obtain ⟨target, htarget⟩ := hend spec.target (by simp)
  exact ⟨producer, target, hproducer, htarget⟩

/-- The id of the next dataset is not in use. -/
theorem Drawn.dataSet_ne {vs : List (VertexSpec × Nat)}
    {pre post : List (EdgeSpec × Nat)} (h : d.Drawn supply vs pre job)
    {vertices : Nat} (hfresh : supply.Fresh vertices d.edges.length)
    {spec : EdgeSpec} {n : Nat}
    (hes : d.edges.zipIdx = pre ++ (spec, n) :: post) :
    ∀ e ∈ job.graph.edges, e.source ≠ supply.dataSet n := by
  intro e he hsource
  obtain ⟨hlt, hpre⟩ := number_of_zipIdx hes
  obtain ⟨entry, hentry, hdraws⟩ := (h.edges e).mp he
  obtain ⟨hentrylt, hnumber⟩ := hpre entry hentry
  exact hnumber (hfresh.dataSet _ hentrylt _ hlt
    (hdraws.source.symm.trans hsource))

theorem vertexId_eq_ok_iff {name : String} {id : VertexId} :
    job.vertexId name = .ok id ↔ job.vertexIds[name]? = some id := by
  rw [LoadedJob.vertexId]
  cases job.vertexIds[name]? <;> simp

section Ends

variable {spec : EdgeSpec} {n : Nat} {producer target : VertexId}
  (hproducer : job.vertexIds[spec.source]? = some producer)
  (htarget : job.vertexIds[spec.target]? = some target)

include hproducer htarget

theorem addEdge_eq : LoadedJob.addEdge supply job (spec, n) =
    Except.bind (job.graph.connect (supply.dataSet n) producer target
      spec.pattern spec.kind) fun graph => .ok { job with graph } := by
  simp only [LoadedJob.addEdge, LoadedJob.vertexId, hproducer, htarget]
  rfl

/-- An edge between names stands for one edge. -/
theorem draws_iff {e : JobEdge} : spec.Draws n supply job.vertexIds e ↔
    e = ⟨supply.dataSet n, producer, target, spec.pattern, spec.kind⟩ := by
  constructor
  · intro hdraws
    obtain ⟨source, producer', target', pattern, kind⟩ := e
    obtain ⟨rfl, hp, ht, rfl, rfl⟩ := hdraws
    rw [hproducer, Option.some.injEq] at hp
    rw [htarget, Option.some.injEq] at ht
    rw [hp, ht]
  · rintro rfl
    exact ⟨rfl, hproducer, htarget, rfl, rfl⟩

end Ends

/-- An edge can be added unless it leads from a vertex to itself. -/
theorem Drawn.addEdge_cases {pre post : List (EdgeSpec × Nat)}
    (h : d.Drawn supply d.vertices.zipIdx pre job) (hvalid : d.Valid)
    (hfresh : supply.Fresh d.vertices.length d.edges.length)
    {spec : EdgeSpec} {n : Nat}
    (hes : d.edges.zipIdx = pre ++ (spec, n) :: post) :
    (spec.source ≠ spec.target ∧
        ∃ job', LoadedJob.addEdge supply job (spec, n) = .ok job' ∧
          d.Drawn supply d.vertices.zipIdx (pre ++ [(spec, n)]) job') ∨
      (spec.source = spec.target ∧
        ∃ v, LoadedJob.addEdge supply job (spec, n) =
          .error (.invalidGraph (.selfLoop v))) := by
  have hspec : spec ∈ d.edges :=
    List.fst_mem_of_mem_zipIdx (x := (spec, n)) (by rw [hes]; simp)
  obtain ⟨producer, target, hproducer, htarget⟩ := h.exists_ends hvalid hspec
  rw [addEdge_eq hproducer htarget]
  by_cases hself : spec.source = spec.target
  · refine .inr ⟨hself, producer, ?_⟩
    rw [hself, htarget, Option.some.injEq] at hproducer
    rw [JobGraph.connect, if_pos hproducer.symm]
    rfl
  · refine .inl ⟨hself, ?_⟩
    -- Different names have different ids, so the graph takes the edge.
    have hne : producer ≠ target := by
      rintro rfl
      exact hself (h.name_inj hfresh hproducer htarget)
    have hvertex : ∀ {name : String} {id : VertexId},
        job.vertexIds[name]? = some id → ∃ v ∈ job.graph.vertices, v.id = id := by
      intro name id hid
      obtain ⟨-, -, -, v, hv, hvid, -⟩ := h.exists_vertex hid
      exact ⟨v, hv, hvid⟩
    obtain ⟨graph, hok, hbuilt, hbare, hperm⟩ := JobGraph.exists_connect
      h.built ⟨supply.dataSet n, producer, target, spec.pattern, spec.kind⟩
      hne (hvertex hproducer) (hvertex htarget) (h.dataSet_ne hfresh hes)
    refine ⟨{ job with graph }, ?_, hbuilt, hbare.trans h.vertices, fun e => ?_,
      h.vertexIds, h.states⟩
    · rw [hok]
      rfl
    · rw [hperm.mem_iff, List.mem_cons, h.edges]
      simp only [List.mem_append, List.mem_singleton, or_and_right,
        exists_or, exists_eq_left]
      rw [or_comm, draws_iff hproducer htarget]

/-! ## Loading -/

/-- All vertices of a valid definition are added, and its edges remain. -/
theorem exists_addVertices (hvalid : d.Valid) {dataSets : Nat}
    (hfresh : supply.Fresh d.vertices.length dataSets) : ∃ job,
      d.load supply = d.edges.zipIdx.foldlM (LoadedJob.addEdge supply) job ∧
        d.Drawn supply d.vertices.zipIdx [] job := by
  have hempty : d.Drawn supply [] []
      { graph := { name := d.name }, states := d.states } :=
    ⟨.empty d.name, rfl, by simp [JobGraph.edges], by simp, rfl⟩
  obtain ⟨job, hvertices, hdrawn⟩ := exists_foldlM_ok
    (P := fun pre job => d.Drawn supply pre [] job)
    (fun pre entry post hvs job h => h.addVertex hvalid hfresh hvs) hempty
  refine ⟨job, ?_, hdrawn⟩
  rw [load, hvertices]
  rfl

/-- A valid definition is loaded unless an edge leads from a vertex to
itself. -/
theorem load_cases (hvalid : d.Valid)
    (hfresh : supply.Fresh d.vertices.length d.edges.length) :
    ((∀ e ∈ d.edges, e.source ≠ e.target) ∧
        ∃ job, d.load supply = .ok job ∧
          d.Drawn supply d.vertices.zipIdx d.edges.zipIdx job) ∨
      ((∃ e ∈ d.edges, e.source = e.target) ∧
        ∃ v, d.load supply = .error (.invalidGraph (.selfLoop v))) := by
  obtain ⟨job, hload, hdrawn⟩ := exists_addVertices hvalid hfresh
  rw [hload]
  have hstep : ∀ pre entry post, d.edges.zipIdx = pre ++ entry :: post →
      ∀ job, ((∀ x ∈ pre, x.1.source ≠ x.1.target) ∧
        d.Drawn supply d.vertices.zipIdx pre job) →
      (∃ job', LoadedJob.addEdge supply job entry = .ok job' ∧
        (∀ x ∈ pre ++ [entry], x.1.source ≠ x.1.target) ∧
          d.Drawn supply d.vertices.zipIdx (pre ++ [entry]) job') ∨
        ∃ e, LoadedJob.addEdge supply job entry = .error e ∧
          (∃ e ∈ d.edges, e.source = e.target) ∧
            ∃ v, e = .invalidGraph (.selfLoop v) := by
    rintro pre ⟨spec, n⟩ post hes job ⟨hnone, h⟩
    rcases h.addEdge_cases hvalid hfresh hes with
      ⟨hne, job', hok, hdrawn'⟩ | ⟨hself, v, herror⟩
    · refine .inl ⟨job', hok, ?_, hdrawn'⟩
      intro entry hentry
      rcases List.mem_append.mp hentry with hentry | hentry
      · exact hnone entry hentry
      · rw [List.mem_singleton.mp hentry]
        exact hne
    · refine .inr ⟨_, herror, ⟨spec, ?_, hself⟩, v, rfl⟩
      exact List.fst_mem_of_mem_zipIdx (x := (spec, n)) (by rw [hes]; simp)
  rcases foldlM_cases (P := fun pre job =>
      (∀ x ∈ pre, x.1.source ≠ x.1.target) ∧
        d.Drawn supply d.vertices.zipIdx pre job) hstep ⟨by simp, hdrawn⟩ with
    ⟨job', hok, hnone, hdrawn'⟩ | ⟨e, herror, hself, v, rfl⟩
  · refine .inl ⟨fun e he => ?_, job', hok, hdrawn'⟩
    obtain ⟨n, hn⟩ := List.mem_iff_getElem?.mp he
    exact hnone (e, n) (List.mem_zipIdx_iff_getElem?.mpr hn)
  · exact .inr ⟨hself, v, herror⟩

/-- What is loaded of a valid definition has its vertices and edges. -/
theorem drawn_of_load (hvalid : d.Valid)
    (hfresh : supply.Fresh d.vertices.length d.edges.length)
    (hload : d.load supply = .ok job) :
    d.Drawn supply d.vertices.zipIdx d.edges.zipIdx job := by
  rcases load_cases hvalid hfresh with ⟨-, job', hok, h⟩ | ⟨-, v, herror⟩
  · cases hok.symm.trans hload
    exact h
  · cases herror.symm.trans hload

end JobDefinition

end ControlPlane
