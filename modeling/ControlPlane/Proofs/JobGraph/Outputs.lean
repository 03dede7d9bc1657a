import Mathlib
import ControlPlane.Proofs.JobGraph.Depth
import ControlPlane.Proofs.Topology.Consistent

/-!
# The order of outbound edges

A vertex lists its datasets in the order in which its outbound edges were
connected. The edges themselves are stored at their targets, so the edges
leaving a vertex are found target by target: they are the datasets put in
order by the position of the vertex that reads them, and only those of one
reader keep their order. The partitions of a task follow the edges. Both
orders are the same iff no dataset was connected after one whose reader comes
later in the graph.
-/

namespace ControlPlane

/-! ## Lists in order of a key -/

section Keys

variable {α : Type*} {key : α → Nat}

/-- A list in order of its keys is the elements with smaller keys followed by
those with greater ones. -/
theorem filter_append_filter_eq {xs : List α}
    (hxs : xs.Pairwise fun x y => key x ≤ key y) (n : Nat) :
    xs.filter (key · < n) ++ xs.filter (key · = n) =
      xs.filter (key · < n + 1) := by
  induction xs with
  | nil => rfl
  | cons x xs ih =>
    obtain ⟨hx, hxs⟩ := List.pairwise_cons.mp hxs
    have ih := ih hxs
    rcases Nat.lt_trichotomy (key x) n with hlt | heq | hgt
    · simpa [List.filter_cons, hlt, Nat.ne_of_lt hlt, Nat.le_of_lt hlt]
        using ih
    · -- The keys behind this one are not smaller.
      have hnone : xs.filter (key · < n) = [] := by
        rw [List.filter_eq_nil_iff]
        intro y hy
        have := hx y hy
        simp
        omega
      rw [hnone, List.nil_append] at ih
      simp [heq, hnone, ih]
    · simpa [List.filter_cons, Nat.lt_asymm hgt, Nat.ne_of_gt hgt,
        Nat.not_le.mpr hgt] using ih

theorem flatMap_filter_range_of_pairwise {xs : List α}
    (hxs : xs.Pairwise fun x y => key x ≤ key y) (n : Nat) :
    ((List.range n).flatMap fun k => xs.filter (key · = k)) =
      xs.filter (key · < n) := by
  induction n with
  | zero => simp
  | succ n ih =>
    rw [List.range_succ, List.flatMap_append, List.flatMap_singleton, ih,
      filter_append_filter_eq hxs]

theorem pairwise_mergeSort_key (key : α → Nat) (xs : List α) :
    (xs.mergeSort fun x y => key x ≤ key y).Pairwise
      fun x y => key x ≤ key y := by
  refine (List.pairwise_mergeSort (by simp; omega) (by simp; omega)
    xs).imp ?_
  simp

/-- Putting a list in order keeps elements with one key as they are. -/
theorem filter_mergeSort_key (xs : List α) (k : Nat) :
    (xs.mergeSort fun x y => key x ≤ key y).filter (key · = k) =
      xs.filter (key · = k) := by
  have hsame : (xs.filter (key · = k)).Pairwise fun x y =>
      decide (key x ≤ key y) = true := by
    rw [List.pairwise_iff_forall_sublist]
    intro x y hxy
    have hx := hxy.subset List.mem_cons_self
    have hy := hxy.subset (List.mem_cons_of_mem _ List.mem_cons_self)
    simp only [List.mem_filter, decide_eq_true_eq] at hx hy ⊢
    omega
  have hkept : (xs.filter (key · = k)).Sublist
      (xs.mergeSort fun x y => key x ≤ key y) :=
    List.sublist_mergeSort (by simp; omega) (by simp; omega) hsame
      List.filter_sublist
  have hsub := hkept.filter (key · = k)
  rw [List.filter_filter] at hsub
  simp only [Bool.and_self] at hsub
  refine (hsub.eq_of_length ?_).symm
  exact ((List.mergeSort_perm xs _).filter _).length_eq.symm

/-- Going through the keys puts a list in order. -/
theorem flatMap_filter_range_eq_mergeSort {xs : List α} {n : Nat}
    (hxs : ∀ x ∈ xs, key x < n) :
    ((List.range n).flatMap fun k => xs.filter (key · = k)) =
      xs.mergeSort fun x y => key x ≤ key y := by
  have hall := flatMap_filter_range_of_pairwise
    (pairwise_mergeSort_key key xs) n
  simp only [filter_mergeSort_key] at hall
  rw [hall, List.filter_eq_self]
  intro x hx
  simpa using hxs x ((List.mergeSort_perm xs _).mem_iff.mp hx)

end Keys

/-- What a vertex becomes when an edge is connected. -/
def JobVertex.connected (e : JobEdge) (v : JobVertex) : JobVertex :=
  { v with
    produced := v.produced ++ if v.id = e.producer then [e.source] else []
    inputs := v.inputs ++ if v.id = e.target then [e] else [] }

/-- A task has its partitions in the order of the edges that leave its
vertex. -/
theorem Topology.Consistent.dataSets_partitionsOf {t : Topology}
    (h : t.Consistent) {task : Task} (htask : task ∈ t.tasks) :
    (t.partitionsOf task.produced).map (·.id.dataSet) =
      (t.graph.outputsOf task.id.vertex).map (·.source) := by
  obtain ⟨i, hi⟩ := Array.mem_iff_getElem?.mp htask
  have hproduced := h.produced i task hi
  calc (t.partitionsOf task.produced).map (·.id.dataSet)
      = (task.produced.map (t.partitions[·]?.map fun p =>
          (p.id, p.producer))).filterMap (·.map (·.1.dataSet)) := by
        rw [partitionsOf, List.map_filterMap, List.filterMap_map]
        simp [Function.comp_def]
    _ = (t.graph.outputsOf task.id.vertex).map (·.source) := by
        rw [hproduced, List.filterMap_map, ← List.filterMap_eq_map]
        rfl

namespace JobGraph

/-! ## Datasets and edges -/

/-- What the vertices record of the datasets that they produce. -/
structure Recorded (g : JobGraph) : Prop where
  /-- A dataset is carried by an edge. -/
  edge : ∀ v ∈ g.vertices, ∀ dataSet ∈ v.produced,
    ∃ e ∈ g.edges, e.source = dataSet
  /-- What one vertex reads from another one, it reads in the order in which
  that lists it. -/
  order : ∀ v ∈ g.vertices, ∀ w ∈ g.vertices,
    (w.inputs.filter (·.producer = v.id)).map (·.source) =
      v.produced.filter (· ∈ w.inputs.map (·.source))

section Recorded

variable {g g' : JobGraph}

theorem recorded_empty (name : String) : Recorded { name } :=
  ⟨by simp, by simp⟩

theorem Recorded.addVertex (h : g.Recorded) (hg : g.WellFormed)
    {id : VertexId} (name : String) (parallelism : Nat)
    (fresh : ∀ v ∈ g.vertices, v.id ≠ id) :
    (g.addVertex id name parallelism).Recorded where
  edge := by
    intro v hv dataSet hd
    rcases List.mem_append.mp hv with hold | hnew
    · obtain ⟨e, he, hsource⟩ := h.edge v hold dataSet hd
      exact ⟨e, by simpa [edges, JobGraph.addVertex] using he, hsource⟩
    · cases List.mem_singleton.mp hnew
      cases hd
  order := by
    intro v hv w hw
    rcases List.mem_append.mp hw with hwold | hwnew
    · rcases List.mem_append.mp hv with hvold | hvnew
      · exact h.order v hvold w hwold
      · -- Nothing is read from the new vertex.
        cases List.mem_singleton.mp hvnew
        simp only [List.filter_nil, List.map_eq_nil_iff,
          List.filter_eq_nil_iff, decide_eq_true_eq]
        rintro e he rfl
        obtain ⟨-, u, hu, huid⟩ := hg.producer w hwold e he
        exact fresh u hu huid
    · cases List.mem_singleton.mp hwnew
      simp

/-- A change of vertices that keeps ids, inputs and datasets. -/
theorem Recorded.updateVertex (h : g.Recorded) {id : VertexId}
    {f : JobVertex → JobVertex} (hid : ∀ v, (f v).id = v.id)
    (hin : ∀ v, (f v).inputs = v.inputs)
    (hout : ∀ v, (f v).produced = v.produced)
    (hok : g.updateVertex id f = .ok g') : g'.Recorded := by
  obtain ⟨pos, -, hret⟩ := bind_eq_ok_iff.mp hok
  cases hret
  -- A vertex after the change is one before, as far as edges go.
  have hold : ∀ v ∈ g.vertices.modify pos f, ∃ w ∈ g.vertices,
      v.id = w.id ∧ v.inputs = w.inputs ∧ v.produced = w.produced := by
    intro v hv
    obtain ⟨w, hw, rfl | rfl⟩ := mem_modify hv
    · exact ⟨v, hw, rfl, rfl, rfl⟩
    · exact ⟨w, hw, hid w, hin w, hout w⟩
  constructor
  · intro v hv dataSet hd
    obtain ⟨w, hw, -, -, hproduced⟩ := hold v hv
    rw [edges, flatMap_inputs_modify pos hin]
    exact h.edge w hw dataSet (hproduced ▸ hd)
  · intro v hv w hw
    obtain ⟨v', hv', hvid, -, hproduced⟩ := hold v hv
    obtain ⟨w', hw', -, hinputs, -⟩ := hold w hw
    rw [hvid, hproduced, hinputs]
    exact h.order v' hv' w' hw'

/-- Connecting an edge adds its dataset to its producer and the edge to its
target. -/
theorem WellFormed.of_connect_eq_ok (hg : g.WellFormed) {e : JobEdge}
    (hok : g.connect e.source e.producer e.target e.pattern e.kind =
      .ok g') :
    (∃ v ∈ g.vertices, v.id = e.target) ∧
      g'.vertices = g.vertices.map (·.connected e) := by
  obtain ⟨hne, source, sink, hsource, hsink, rfl⟩ :=
    JobGraph.of_connect_eq_ok hok
  have hg1 := hg.modify source (f := fun v =>
    { v with produced := v.produced ++ [e.source] }) (fun _ => rfl)
      fun _ => rfl
  rw [hg.position_eq_ok] at hsource hsink
  obtain ⟨v, hv, hid⟩ := Option.map_eq_some_iff.mp hsink
  refine ⟨⟨v, List.mem_iff_getElem?.mpr ⟨sink, hv⟩, hid⟩, ?_⟩
  rw [Indexes.modify_eq_map (f := JobVertex.id) hg1.positions
      ((hg.positions _ _).mpr hsink),
    Indexes.modify_eq_map (f := JobVertex.id) hg.positions
      ((hg.positions _ _).mpr hsource), List.map_map]
  refine List.map_congr_left fun w _ => ?_
  dsimp only [Function.comp_apply, JobVertex.connected]
  by_cases hp : w.id = e.producer
  · have hc : w.id ≠ e.target := hp ▸ hne
    simp only [if_pos hp, if_neg hc, List.append_nil]
  · by_cases hc : w.id = e.target
    · simp only [if_neg hp, if_pos hc, List.append_nil]
    · simp only [if_neg hp, if_neg hc, List.append_nil]

theorem Recorded.connect (h : g.Recorded) (hg : g.WellFormed) {e : JobEdge}
    (fresh : ∀ e' ∈ g.edges, e'.source ≠ e.source)
    (hok : g.connect e.source e.producer e.target e.pattern e.kind =
      .ok g') : g'.Recorded := by
  obtain ⟨⟨u, hu, huid⟩, hvertices⟩ := hg.of_connect_eq_ok hok
  have hread : ∀ w ∈ g.vertices, e.source ∉ w.inputs.map (·.source) := by
    intro w hw hmem
    obtain ⟨e', he', hsource⟩ := List.mem_map.mp hmem
    exact fresh e' (mem_edges.mpr ⟨w, hw, he'⟩) hsource
  have hproduced : ∀ v ∈ g.vertices, e.source ∉ v.produced := by
    intro v hv hmem
    obtain ⟨e', he', hsource⟩ := h.edge v hv e.source hmem
    exact fresh e' he' hsource
  constructor
  · rw [hvertices, List.forall_mem_map]
    intro v hv dataSet hd
    rcases List.mem_append.mp hd with hd | hd
    · obtain ⟨e', he', hsource⟩ := h.edge v hv dataSet hd
      obtain ⟨w, hw, hew⟩ := mem_edges.mp he'
      exact ⟨e', mem_edges.mpr ⟨w.connected e, hvertices ▸
        List.mem_map_of_mem hw, List.mem_append_left _ hew⟩, hsource⟩
    · have hnew : dataSet = e.source := by
        split at hd
        · exact List.mem_singleton.mp hd
        · cases hd
      exact ⟨e, mem_edges.mpr ⟨u.connected e, hvertices ▸
        List.mem_map_of_mem hu, by simp [JobVertex.connected, huid]⟩,
        hnew.symm⟩
  · simp only [hvertices, List.forall_mem_map]
    intro v hv w hw
    have hold := h.order v hv w hw
    -- The dataset is new to both, so the old ones are selected as before.
    have hsame : v.produced.filter
        (· ∈ (w.connected e).inputs.map (·.source)) =
          v.produced.filter (· ∈ w.inputs.map (·.source)) := by
      refine List.filter_congr fun x hx => ?_
      have hne : x ≠ e.source := fun heq => hproduced v hv (heq ▸ hx)
      by_cases hwt : w.id = e.target <;>
        simp [JobVertex.connected, hwt, hne]
    have hnew : (if v.id = e.producer then [e.source] else []).filter
        (· ∈ (w.connected e).inputs.map (·.source)) =
          if v.id = e.producer ∧ w.id = e.target then [e.source] else [] := by
      have hnone := hread w hw
      by_cases hvp : v.id = e.producer <;> by_cases hwt : w.id = e.target <;>
        simp_all [JobVertex.connected]
    calc ((w.connected e).inputs.filter (·.producer = v.id)).map (·.source)
        = (w.inputs.filter (·.producer = v.id)).map (·.source) ++
            if v.id = e.producer ∧ w.id = e.target then [e.source] else [] := by
          by_cases hvp : e.producer = v.id <;>
            by_cases hwt : w.id = e.target <;>
            simp [JobVertex.connected, hvp, hwt, eq_comm (a := v.id)]
      _ = (v.connected e).produced.filter
            (· ∈ (w.connected e).inputs.map (·.source)) := by
          rw [hold, ← hnew, ← hsame, ← List.filter_append]
          rfl

theorem Recorded.reindex (h : g.Recorded) : g.reindex.Recorded :=
  ⟨h.edge, h.order⟩

/-- Every graph that can be built records its datasets along with its
edges. -/
theorem Built.recorded (h : g.Built) : g.Recorded := by
  induction h with
  | empty name => exact recorded_empty name
  | addVertex name parallelism hg fresh ih =>
    exact ih.addVertex hg.wellFormed name parallelism fresh
  | @connect _ _ dataSet producer consumer pattern kind hg fresh h ih =>
    exact ih.connect (e := ⟨dataSet, producer, consumer, pattern, kind⟩)
      hg.wellFormed fresh h
  | @setCoLocationGroup _ _ _ group _ h ih =>
    exact ih.updateVertex (f := ({ · with coLocationGroup := some group }))
      (fun _ => rfl) (fun _ => rfl) (fun _ => rfl) h
  | @setSnapshotGroup _ _ _ group _ h ih =>
    exact ih.updateVertex (f := ({ · with snapshotGroup := some group }))
      (fun _ => rfl) (fun _ => rfl) (fun _ => rfl) h
  | reindex _ ih => exact ih.reindex

end Recorded

/-! ## The order of the edges -/

/-- The position of the vertex that reads a dataset. -/
def readerPosition (g : JobGraph) (dataSet : DataSetId) : Nat :=
  g.vertices.findIdx (·.inputs.any (·.source = dataSet))

section Outputs

variable {g : JobGraph} {v : JobVertex}

theorem WellFormed.readerPosition_eq_iff (hg : g.WellFormed)
    {dataSet : DataSetId} {pos : Nat} {w : JobVertex}
    (hpos : g.vertices[pos]? = some w) :
    g.readerPosition dataSet = pos ↔ dataSet ∈ w.inputs.map (·.source) := by
  obtain ⟨hlt, hw⟩ := List.getElem?_eq_some_iff.mp hpos
  have hreads : ∀ u : JobVertex, (u.inputs.any (·.source = dataSet)) = true ↔
      dataSet ∈ u.inputs.map (·.source) := by simp
  rw [readerPosition, List.findIdx_eq hlt, hreads, hw]
  refine and_iff_left_of_imp fun hmem j hj => ?_
  obtain ⟨e, he, hsource⟩ := List.mem_map.mp hmem
  rw [← Bool.not_eq_true, hreads]
  intro hother
  obtain ⟨e', he', hsource'⟩ := List.mem_map.mp hother
  -- The edge of the dataset is stored at its target only.
  have hjget := List.getElem?_eq_getElem (hj.trans hlt)
  have hu := List.mem_of_getElem? hjget
  have hwmem := List.mem_of_getElem? hpos
  have hee := hg.edge_inj (mem_edges.mpr ⟨_, hu, he'⟩)
    (mem_edges.mpr ⟨w, hwmem, he⟩) (hsource'.trans hsource.symm)
  have huw := hg.vertex_inj hu hwmem
    (by rw [← hg.target _ hu _ he', hee, hg.target w hwmem e he])
  have hjpos : j = pos := hg.positions.inj (k := w.id)
    (by simp [idAt, hjget, huw]) (by simp [idAt, hpos])
  omega

/-- The datasets of the edges that leave a vertex are its datasets, in order
of their readers. -/
theorem WellFormed.sources_outputsOf (hg : g.WellFormed) (hr : g.Recorded)
    (hv : v ∈ g.vertices) :
    (g.outputsOf v.id).map (·.source) = v.produced.mergeSort fun d e =>
      g.readerPosition d ≤ g.readerPosition e := by
  have hread : ∀ d ∈ v.produced, g.readerPosition d < g.vertices.length := by
    intro d hd
    obtain ⟨e, he, rfl⟩ := hr.edge v hv d hd
    obtain ⟨w, hw, hew⟩ := mem_edges.mp he
    exact List.findIdx_lt_length_of_exists ⟨w, hw, by simpa using ⟨e, hew, rfl⟩⟩
  rw [← flatMap_filter_range_eq_mergeSort hread]
  calc (g.outputsOf v.id).map (·.source)
      = g.vertices.flatMap fun w =>
          (w.inputs.filter (·.producer = v.id)).map (·.source) := by
        rw [outputsOf, edges, List.filter_flatMap, List.map_flatMap]
    _ = (List.range g.vertices.length).flatMap fun pos =>
          ((g.vertices[pos]?.map fun w =>
            (w.inputs.filter (·.producer = v.id)).map (·.source)).getD []) :=
        (flatMap_getElem?_range _ _).symm
    _ = (List.range g.vertices.length).flatMap fun pos =>
          v.produced.filter (g.readerPosition · = pos) := by
        refine List.flatMap_congr fun pos hpos => ?_
        have hlt := List.mem_range.mp hpos
        have hw := List.getElem?_eq_getElem hlt
        rw [hw, Option.map_some, Option.getD_some,
          hr.order v hv _ (List.getElem_mem hlt)]
        refine List.filter_congr fun d _ => ?_
        simp only [hg.readerPosition_eq_iff hw]

/-- The order of what leaves a vertex. -/
structure OrderedByReader (g : JobGraph) (v : JobVertex) : Prop where
  /-- The edges carry the datasets of the vertex in order of the position of
  their readers, and datasets of one reader in the order of connection. -/
  outputs : (g.outputsOf v.id).map (·.source) =
    v.produced.mergeSort fun d e => g.readerPosition d ≤ g.readerPosition e
  /-- That is the order of connection iff readers were connected in order. -/
  connected : (g.outputsOf v.id).map (·.source) = v.produced ↔
    v.produced.Pairwise fun d e => g.readerPosition d ≤ g.readerPosition e
  /-- The partitions of a task follow the edges. -/
  partitions : ∀ t, Topology.ofJobGraph g = .ok t → ∀ task ∈ t.tasks,
    task.id.vertex = v.id →
      (t.partitionsOf task.produced).map (·.id.dataSet) =
        (g.outputsOf v.id).map (·.source)

/-- The edges that leave a vertex are ordered by their readers. They are in
the order of the datasets of the vertex iff these were connected so. -/
theorem orderedByReader_of_built (hbuilt : g.Built) (hv : v ∈ g.vertices) :
    g.OrderedByReader v := by
  have hg := hbuilt.wellFormed
  have houtputs := hg.sources_outputsOf hbuilt.recorded hv
  refine ⟨houtputs, ?connected, ?partitions⟩
  case connected =>
    rw [houtputs]
    constructor
    · intro heq
      have hsorted := pairwise_mergeSort_key g.readerPosition v.produced
      rwa [heq] at hsorted
    · intro hpair
      exact List.mergeSort_of_pairwise (by simpa using hpair)
  case partitions =>
    intro t ht task htask hid
    obtain ⟨t0, hwhole, rfl, rfl⟩ := Topology.exists_of_ofJobGraph hg ht
    rw [hwhole.computeRegions.consistent.dataSets_partitionsOf htask,
      Topology.graph_computeRegions, hid]

/-- The source of the diamond feeds the sink twice and then the right side,
in the order of the graph. -/
theorem orderedByReader_diamond :
    ∃ v ∈ diamond.vertices, v.name = "source" ∧ diamond.OrderedByReader v ∧
      (diamond.outputsOf v.id).map (·.source) = v.produced ∧
        v.produced.length = 3 := by
  have hmem : diamond.vertices[3]! ∈ diamond.vertices := by decide +kernel
  exact ⟨_, hmem, by decide +kernel, orderedByReader_of_built built_diamond hmem,
    by decide +kernel, by decide +kernel⟩

/-- The right side of the diamond feeds the left side and then the sink,
which was added before. -/
theorem outputsOf_diamond_right :
    diamond.Built ∧ ∃ v ∈ diamond.vertices, v.name = "right" ∧
      (diamond.outputsOf v.id).map (·.source) ≠ v.produced ∧
        (diamond.outputsOf v.id).map (·.source) = v.produced.reverse := by
  have hmem : diamond.vertices[1]! ∈ diamond.vertices := by decide +kernel
  exact ⟨built_diamond, _, hmem, by decide +kernel, by decide +kernel,
    by decide +kernel⟩

end Outputs

end JobGraph

end ControlPlane
