import Mathlib
import ControlPlane.JobGraph.Basic
import ControlPlane.Proofs.Index
import ControlPlane.Proofs.Loops
import ControlPlane.Proofs.Sequence

/-!
# Built job graphs

A job graph is built by adding vertices and edges under fresh ids. What
everything behind it relies on is `JobGraph.WellFormed`: the index is exact,
an edge is stored at its target and has another vertex for its producer,
and no two edges carry one dataset. Every step of building keeps it, and so
does a change of parallelism while the job runs.
-/

namespace ControlPlane

namespace JobGraph

/-- The graphs that can be built when all ids drawn are fresh. A failing
step leaves the graph as it is and needs no rule. -/
inductive Built : JobGraph → Prop where
  | empty (name : String) : Built { name }
  | addVertex {g : JobGraph} {id : VertexId} (name : String)
      (parallelism : Nat) (hg : Built g) (fresh : ∀ v ∈ g.vertices, v.id ≠ id) :
      Built (g.addVertex id name parallelism)
  | connect {g g' : JobGraph} {dataSet : DataSetId}
      {producer consumer : VertexId} {pattern : Pattern} {kind : ResultKind}
      (hg : Built g) (fresh : ∀ e ∈ g.edges, e.source ≠ dataSet)
      (h : g.connect dataSet producer consumer pattern kind = .ok g') :
      Built g'
  | setCoLocationGroup {g g' : JobGraph} {id : VertexId} {group : String}
      (hg : Built g) (h : g.setCoLocationGroup id group = .ok g') : Built g'
  | setSnapshotGroup {g g' : JobGraph} {id : VertexId} {group : String}
      (hg : Built g) (h : g.setSnapshotGroup id group = .ok g') : Built g'
  | reindex {g : JobGraph} (hg : Built g) : Built g.reindex

/-- The id at a position. -/
def idAt (g : JobGraph) (pos : Nat) : Option VertexId :=
  g.vertices[pos]?.map (·.id)

/-- The relations between the parts of a job graph. -/
structure WellFormed (g : JobGraph) : Prop where
  /-- Vertices are found at their positions. -/
  positions : Indexes g.positions g.idAt
  /-- An edge is stored at its target. -/
  target : ∀ v ∈ g.vertices, ∀ e ∈ v.inputs, e.target = v.id
  /-- An edge comes from another vertex of the graph. -/
  producer : ∀ v ∈ g.vertices, ∀ e ∈ v.inputs,
    e.producer ≠ v.id ∧ ∃ w ∈ g.vertices, w.id = e.producer
  /-- No two edges carry one dataset. -/
  sources : (g.edges.map (·.source)).Nodup

theorem mem_edges {g : JobGraph} {e : JobEdge} :
    e ∈ g.edges ↔ ∃ v ∈ g.vertices, e ∈ v.inputs := by
  simp [edges]

theorem mem_outputsOf {g : JobGraph} {id : VertexId} {e : JobEdge} :
    e ∈ g.outputsOf id ↔ e ∈ g.edges ∧ e.producer = id := by
  simp [outputsOf]

namespace WellFormed

variable {g : JobGraph}

/-- An edge is known by its dataset. -/
theorem edge_inj (hg : g.WellFormed) {e e' : JobEdge} (he : e ∈ g.edges)
    (he' : e' ∈ g.edges) (h : e.source = e'.source) : e = e' :=
  List.inj_on_of_nodup_map hg.sources he he' h

theorem vertex_inj (hg : g.WellFormed) {v w : JobVertex}
    (hv : v ∈ g.vertices) (hw : w ∈ g.vertices) (h : v.id = w.id) :
    v = w := by
  obtain ⟨i, hi⟩ := List.mem_iff_getElem?.mp hv
  obtain ⟨j, hj⟩ := List.mem_iff_getElem?.mp hw
  have hij : i = j := hg.positions.inj (k := v.id)
    (by simp [idAt, hi]) (by simp [idAt, hj, h])
  subst hij
  exact Option.some.inj (hi.symm.trans hj)

theorem ids_nodup (hg : g.WellFormed) : (g.vertices.map (·.id)).Nodup := by
  rw [List.nodup_iff_injective_getElem]
  intro i j hij
  have hi := i.isLt
  have hj := j.isLt
  simp only [List.length_map] at hi hj
  simp only [List.getElem_map] at hij
  exact Fin.ext (hg.positions.inj (k := (g.vertices[i.val]).id)
    (by simp [idAt, hi]) (by simp [idAt, hj, hij]))

/-- Looking up an id finds the vertex that has it. -/
theorem vertex_eq_ok (hg : g.WellFormed) {id : VertexId} {v : JobVertex} :
    g.vertex id = .ok v ↔ v ∈ g.vertices ∧ v.id = id := by
  constructor
  · intro h
    unfold vertex at h
    split at h
    · rename_i w hw
      cases h
      obtain ⟨i, hi, hv⟩ := Option.bind_eq_some_iff.mp hw
      have hid := (hg.positions id i).mp hi
      simp only [idAt, hv, Option.map_some, Option.some.injEq] at hid
      exact ⟨List.mem_iff_getElem?.mpr ⟨i, hv⟩, hid⟩
    · cases h
  · rintro ⟨hv, rfl⟩
    obtain ⟨i, hi⟩ := List.mem_iff_getElem?.mp hv
    have hp := (hg.positions v.id i).mpr (by simp [idAt, hi])
    simp [vertex, hp, hi]

theorem position_eq_ok (hg : g.WellFormed) {id : VertexId} {i : Nat} :
    g.position id = .ok i ↔ g.idAt i = some id := by
  rw [← hg.positions id i, position]
  split <;> simp_all

theorem exists_of_position (hg : g.WellFormed) {id : VertexId} {pos : Nat}
    (h : g.position id = .ok pos) : ∃ v ∈ g.vertices, v.id = id := by
  obtain ⟨v, hv, hid⟩ := Option.map_eq_some_iff.mp (hg.position_eq_ok.mp h)
  exact ⟨v, List.mem_of_getElem? hv, hid⟩

/-- Every vertex has a position. -/
theorem exists_position (hg : g.WellFormed) {id : VertexId}
    (h : ∃ v ∈ g.vertices, v.id = id) :
    ∃ pos < g.vertices.length, g.position id = .ok pos := by
  obtain ⟨v, hv, rfl⟩ := h
  obtain ⟨pos, hpos⟩ := List.mem_iff_getElem?.mp hv
  exact ⟨pos, (List.getElem?_eq_some_iff.mp hpos).1,
    hg.position_eq_ok.mpr (by simp [idAt, hpos])⟩

/-- The inputs of a vertex are the edges that lead to it. -/
theorem filter_target (hg : g.WellFormed) {v : JobVertex}
    (hv : v ∈ g.vertices) : g.edges.filter (·.target = v.id) = v.inputs :=
  filter_flatMap_key hg.ids_nodup hg.target hv

end WellFormed

/-! ## Changing a vertex in place -/

theorem mem_modify {v : JobVertex} {vs : List JobVertex} {pos : Nat}
    {f : JobVertex → JobVertex} (h : v ∈ vs.modify pos f) :
    ∃ w ∈ vs, v = w ∨ v = f w := by
  obtain ⟨i, hi⟩ := List.mem_iff_getElem?.mp h
  rw [List.getElem?_modify] at hi
  cases hw : vs[i]? with
  | none => simp [hw] at hi
  | some w =>
    refine ⟨w, List.mem_iff_getElem?.mpr ⟨i, hw⟩, ?_⟩
    by_cases hp : pos = i <;> simp_all

theorem idAt_modify {vs : List JobVertex} {pos i : Nat}
    {f : JobVertex → JobVertex} (hf : ∀ v, (f v).id = v.id) :
    (vs.modify pos f)[i]?.map (·.id) = vs[i]?.map (·.id) := by
  rw [List.getElem?_modify]
  by_cases hp : pos = i <;> cases vs[i]? <;> simp [hp, hf]

theorem flatMap_inputs_modify {vs : List JobVertex} (pos : Nat)
    {f : JobVertex → JobVertex} (hf : ∀ v, (f v).inputs = v.inputs) :
    (vs.modify pos f).flatMap (·.inputs) = vs.flatMap (·.inputs) := by
  induction vs generalizing pos with
  | nil => simp
  | cons v vs ih =>
    cases pos with
    | zero => simp [hf]
    | succ pos => simp [ih]

/-- A vertex still has its id after a change that keeps ids. -/
theorem exists_mem_modify {vs : List JobVertex} (pos : Nat)
    {f : JobVertex → JobVertex} (hf : ∀ v, (f v).id = v.id)
    {w : JobVertex} (hw : w ∈ vs) :
    ∃ w' ∈ vs.modify pos f, w'.id = w.id := by
  obtain ⟨i, hi⟩ := List.mem_iff_getElem?.mp hw
  have h : (vs.modify pos f)[i]?.map (·.id) = vs[i]?.map (·.id) :=
    idAt_modify hf
  rw [hi, Option.map_some, Option.map_eq_some_iff] at h
  obtain ⟨w', hw', hid⟩ := h
  exact ⟨w', List.mem_iff_getElem?.mpr ⟨i, hw'⟩, hid⟩

/-- A change of one vertex that keeps its id and its inputs keeps the graph
well-formed. -/
theorem WellFormed.modify {g : JobGraph} (hg : g.WellFormed) (pos : Nat)
    {f : JobVertex → JobVertex} (hid : ∀ v, (f v).id = v.id)
    (hin : ∀ v, (f v).inputs = v.inputs) :
    WellFormed { g with vertices := g.vertices.modify pos f } where
  positions := by
    intro k i
    rw [hg.positions k i, idAt, idAt, idAt_modify hid]
  target := by
    intro v hv e he
    obtain ⟨w, hw, rfl | rfl⟩ := mem_modify hv
    · exact hg.target v hw e he
    · rw [hin] at he
      rw [hid, hg.target w hw e he]
  producer := by
    intro v hv e he
    obtain ⟨w, hw, hvw⟩ := mem_modify hv
    have hew : e ∈ w.inputs := by
      rcases hvw with rfl | rfl
      · exact he
      · rwa [hin] at he
    have hvid : v.id = w.id := by rcases hvw with rfl | rfl <;> simp [hid]
    obtain ⟨hne, u, hu, huid⟩ := hg.producer w hw e hew
    obtain ⟨u', hu', hid'⟩ := exists_mem_modify pos hid hu
    exact ⟨hvid ▸ hne, u', hu', hid'.trans huid⟩
  sources := by
    have h := hg.sources
    rwa [edges, ← flatMap_inputs_modify pos hin] at h

theorem WellFormed.updateVertex {g g' : JobGraph} (hg : g.WellFormed)
    {id : VertexId} {f : JobVertex → JobVertex} (hid : ∀ v, (f v).id = v.id)
    (hin : ∀ v, (f v).inputs = v.inputs)
    (h : g.updateVertex id f = .ok g') : g'.WellFormed := by
  obtain ⟨pos, -, hret⟩ := bind_eq_ok_iff.mp h
  cases hret
  exact hg.modify _ hid hin

/-- The number of subtasks of a vertex can always be changed. -/
theorem WellFormed.setParallelism {g : JobGraph} (hg : g.WellFormed)
    {v : JobVertex} (hv : v ∈ g.vertices) (n : Nat) :
    ∃ g', g.setParallelism v.id n = .ok g' ∧ g'.WellFormed ∧
      g'.edges = g.edges ∧ g'.positions = g.positions ∧
      g'.vertices = g.vertices.map fun w =>
        if w.id = v.id then { w with parallelism := n } else w := by
  obtain ⟨pos, hpos⟩ := List.mem_iff_getElem?.mp hv
  have hid : g.idAt pos = some v.id := by simp [idAt, hpos]
  refine ⟨{ g with
    vertices := g.vertices.modify pos ({ · with parallelism := n }) },
    ?_, ?_, ?_, rfl, ?_⟩
  · simp [JobGraph.setParallelism, JobGraph.updateVertex,
      hg.position_eq_ok.mpr hid, bind, Except.bind, pure, Except.pure]
  · exact hg.modify _ (f := ({ · with parallelism := n })) (fun _ => rfl)
      fun _ => rfl
  · exact flatMap_inputs_modify _ (f := ({ · with parallelism := n }))
      fun _ => rfl
  · exact Indexes.modify_eq_map (f := JobVertex.id) hg.positions
      ((hg.positions v.id pos).mpr hid) _

/-! ## Building keeps graphs well-formed -/

theorem wellFormed_empty (name : String) : WellFormed { name } where
  positions := by
    intro k i
    simp [idAt]
  target := by simp
  producer := by simp
  sources := by simp [edges]

theorem WellFormed.addVertex {g : JobGraph} (hg : g.WellFormed)
    {id : VertexId} (name : String) (parallelism : Nat)
    (fresh : ∀ v ∈ g.vertices, v.id ≠ id) :
    (g.addVertex id name parallelism).WellFormed where
  positions := by
    exact Indexes.append (f := JobVertex.id) (x := { id, name, parallelism })
      hg.positions fresh
  target := by
    intro v hv e he
    rcases List.mem_append.mp hv with hv | hv
    · exact hg.target v hv e he
    · cases List.mem_singleton.mp hv
      cases he
  producer := by
    intro v hv e he
    rcases List.mem_append.mp hv with hv | hv
    · obtain ⟨hne, w, hw, hid⟩ := hg.producer v hv e he
      exact ⟨hne, w, List.mem_append_left _ hw, hid⟩
    · cases List.mem_singleton.mp hv
      cases he
  sources := by
    simpa [edges, JobGraph.addVertex] using hg.sources

/-- A new input at one vertex is a new edge of the graph. -/
theorem perm_flatMap_inputs {vs : List JobVertex} {pos : Nat} (e : JobEdge)
    (hpos : pos < vs.length) :
    ((vs.modify pos fun v =>
      { v with inputs := v.inputs ++ [e] }).flatMap (·.inputs)).Perm
        (e :: vs.flatMap (·.inputs)) := by
  induction vs generalizing pos with
  | nil => simp at hpos
  | cons v vs ih =>
    cases pos with
    | zero =>
      simp only [List.modify_zero_cons, List.flatMap_cons, List.append_assoc,
        List.singleton_append]
      exact List.perm_middle
    | succ pos =>
      simp only [List.modify_succ_cons, List.flatMap_cons]
      exact ((ih (by simpa using hpos)).append_left _).trans
        List.perm_middle

/-- An edge with a fresh dataset can be stored at its target. -/
theorem WellFormed.addInput {g : JobGraph} (hg : g.WellFormed)
    (edge : JobEdge) {sink : Nat} (hsink : g.idAt sink = some edge.target)
    (hne : edge.producer ≠ edge.target)
    (hproducer : ∃ w ∈ g.vertices, w.id = edge.producer)
    (fresh : ∀ e ∈ g.edges, e.source ≠ edge.source) :
    WellFormed { g with
      vertices := g.vertices.modify sink fun v =>
        { v with inputs := v.inputs ++ [edge] } } := by
  set f : JobVertex → JobVertex := fun v =>
    { v with inputs := v.inputs ++ [edge] } with hf
  have hid : ∀ v, (f v).id = v.id := fun _ => rfl
  obtain ⟨w, hw, hwid⟩ := Option.map_eq_some_iff.mp hsink
  have hperm := perm_flatMap_inputs edge (List.getElem?_eq_some_iff.mp hw).1
  -- An input after the step is an old one of the same vertex or the edge.
  have hinputs : ∀ v ∈ g.vertices.modify sink f, ∀ e ∈ v.inputs,
      (∃ v' ∈ g.vertices, v'.id = v.id ∧ e ∈ v'.inputs) ∨
        (e = edge ∧ v.id = edge.target) := by
    intro v hv e he
    obtain ⟨i, hi⟩ := List.mem_iff_getElem?.mp hv
    rw [List.getElem?_modify] at hi
    by_cases hp : sink = i
    · subst hp
      simp only [if_pos, hw, Option.map_eq_map, Option.map_some,
        Option.some.injEq] at hi
      subst hi
      rcases List.mem_append.mp he with he | he
      · exact .inl ⟨w, List.mem_iff_getElem?.mpr ⟨sink, hw⟩, rfl, he⟩
      · exact .inr ⟨List.mem_singleton.mp he, hwid⟩
    · simp only [if_neg hp, Option.map_eq_map, Option.map_id'] at hi
      exact .inl ⟨v, List.mem_iff_getElem?.mpr ⟨i, hi⟩, rfl, he⟩
  exact {
    positions := by
      intro k i
      rw [hg.positions k i, idAt, idAt, idAt_modify hid]
    target := by
      intro v hv e he
      rcases hinputs v hv e he with ⟨v', hv', hid, he'⟩ | ⟨rfl, hid⟩
      · rw [hg.target v' hv' e he', hid]
      · exact hid.symm
    producer := by
      intro v hv e he
      rcases hinputs v hv e he with ⟨v', hv', hvid, he'⟩ | ⟨rfl, hvid⟩
      · obtain ⟨hne', x, hx, hxid⟩ := hg.producer v' hv' e he'
        obtain ⟨x', hx', hxid'⟩ := exists_mem_modify sink hid hx
        exact ⟨hvid ▸ hne', x', hx', hxid'.trans hxid⟩
      · obtain ⟨x, hx, hxid⟩ := hproducer
        obtain ⟨x', hx', hxid'⟩ := exists_mem_modify sink hid hx
        exact ⟨hvid ▸ hne, x', hx', hxid'.trans hxid⟩
    sources := by
      refine (hperm.map (·.source)).nodup_iff.mpr ?_
      rw [List.map_cons, List.nodup_cons]
      refine ⟨?_, hg.sources⟩
      intro hmem
      obtain ⟨e, he, hsrc⟩ := List.mem_map.mp hmem
      exact fresh e he hsrc }

/-- What connecting two vertices takes, and what it changes. -/
theorem of_connect_eq_ok {g g' : JobGraph} {dataSet : DataSetId}
    {producer consumer : VertexId} {pattern : Pattern} {kind : ResultKind}
    (h : g.connect dataSet producer consumer pattern kind = .ok g') :
    producer ≠ consumer ∧ ∃ source sink,
      g.position producer = .ok source ∧ g.position consumer = .ok sink ∧
      g' = { g with
        vertices := (g.vertices.modify source fun v =>
          { v with produced := v.produced ++ [dataSet] }).modify sink fun v =>
            { v with inputs := v.inputs ++
              [⟨dataSet, producer, consumer, pattern, kind⟩] } } := by
  unfold JobGraph.connect at h
  by_cases hne : producer = consumer
  · simp [hne, bind, Except.bind, throw, throwThe, MonadExceptOf.throw] at h
  rw [if_neg hne] at h
  obtain ⟨source, hsource, hrest⟩ := bind_eq_ok_iff.mp h
  obtain ⟨sink, hsink, hret⟩ := bind_eq_ok_iff.mp hrest
  exact ⟨hne, source, sink, hsource, hsink, (Except.ok.inj hret).symm⟩

theorem WellFormed.connect {g g' : JobGraph} (hg : g.WellFormed)
    {dataSet : DataSetId} {producer consumer : VertexId} {pattern : Pattern}
    {kind : ResultKind} (fresh : ∀ e ∈ g.edges, e.source ≠ dataSet)
    (h : g.connect dataSet producer consumer pattern kind = .ok g') :
    g'.WellFormed := by
  obtain ⟨hne, source, sink, hsource, hsink, rfl⟩ := of_connect_eq_ok h
  -- The producer's vertex first gets its dataset, which changes no edge.
  set f : JobVertex → JobVertex := fun v =>
    { v with produced := v.produced ++ [dataSet] } with hf
  have hid : ∀ v, (f v).id = v.id := fun _ => rfl
  have hg1 := hg.modify source hid fun _ => rfl
  rw [hg.position_eq_ok] at hsource hsink
  obtain ⟨u, hu, huid⟩ := Option.map_eq_some_iff.mp hsource
  obtain ⟨u', hu', hid'⟩ := exists_mem_modify source hid
    (List.mem_iff_getElem?.mpr ⟨source, hu⟩)
  refine hg1.addInput ⟨dataSet, producer, consumer, pattern, kind⟩
    ?_ hne ⟨u', hu', hid'.trans huid⟩ ?_
  · rw [idAt, idAt_modify hid]
    exact hsink
  · intro e he
    rw [edges, flatMap_inputs_modify _ (f := f) fun _ => rfl] at he
    exact fresh e he

theorem WellFormed.reindex {g : JobGraph} (hg : g.WellFormed) :
    g.reindex.WellFormed where
  positions := Indexes.foldl_insert (f := JobVertex.id) hg.ids_nodup
  target := hg.target
  producer := hg.producer
  sources := hg.sources

/-- Every graph that can be built is well-formed. -/
theorem Built.wellFormed {g : JobGraph} (h : g.Built) : g.WellFormed := by
  induction h with
  | empty name => exact wellFormed_empty name
  | addVertex name parallelism _ fresh ih =>
    exact ih.addVertex name parallelism fresh
  | connect _ fresh h ih => exact ih.connect fresh h
  | @setCoLocationGroup _ _ _ group _ h ih =>
    exact ih.updateVertex (f := ({ · with coLocationGroup := some group }))
      (fun _ => rfl) (fun _ => rfl) h
  | @setSnapshotGroup _ _ _ group _ h ih =>
    exact ih.updateVertex (f := ({ · with snapshotGroup := some group }))
      (fun _ => rfl) (fun _ => rfl) h
  | reindex _ ih => exact ih.reindex

end JobGraph

end ControlPlane
