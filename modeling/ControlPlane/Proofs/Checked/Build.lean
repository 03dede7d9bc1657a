import Mathlib
import ControlPlane.Proofs.Checked.Regions

/-!
# Building a topology looks up nothing that is not there

A job graph that was read can hold anything: one id for several vertices, one
dataset on several edges, an edge from a vertex to itself or from one that
does not exist, and no index. All that a graph keeps, however it came about,
is that its index leads to vertices. A topology is built from it or it is
refused, and either way no position and no key is looked up that is not there.
Where one is built, every task is in one region.
-/

namespace ControlPlane

/-! ## Graphs that need not be well-formed -/

namespace JobGraph

/-- The graphs that a program can get hold of. One that is read has any
vertices and no index, and ids that are added need not be fresh. A failing
step leaves the graph as it is and needs no rule. -/
inductive Obtained : JobGraph → Prop where
  | read (name : String) (vertices : List JobVertex) :
      Obtained { name, vertices }
  | rename {g : JobGraph} (name : String) (hg : Obtained g) :
      Obtained { g with name }
  | addVertex {g : JobGraph} (id : VertexId) (name : String)
      (parallelism : Nat) (hg : Obtained g) :
      Obtained (g.addVertex id name parallelism)
  | connect {g g' : JobGraph} {dataSet : DataSetId}
      {producer consumer : VertexId} {pattern : Pattern} {kind : ResultKind}
      (hg : Obtained g)
      (h : g.connect dataSet producer consumer pattern kind = .ok g') :
      Obtained g'
  | setCoLocationGroup {g g' : JobGraph} {id : VertexId} {group : String}
      (hg : Obtained g) (h : g.setCoLocationGroup id group = .ok g') :
      Obtained g'
  | setSnapshotGroup {g g' : JobGraph} {id : VertexId} {group : String}
      (hg : Obtained g) (h : g.setSnapshotGroup id group = .ok g') :
      Obtained g'
  | setParallelism {g g' : JobGraph} {id : VertexId} {n : Nat}
      (hg : Obtained g) (h : g.setParallelism id n = .ok g') : Obtained g'
  | reindex {g : JobGraph} (hg : Obtained g) : Obtained g.reindex

namespace IndexInRange

variable {g g' : JobGraph}

/-- As many vertices, found through the same index. -/
theorem congr (hg : g.IndexInRange) (hpositions : g'.positions = g.positions)
    (hlength : g'.vertices.length = g.vertices.length) : g'.IndexInRange := by
  intro id pos hpos
  rw [hpositions] at hpos
  rw [hlength]
  exact hg id pos hpos

theorem addVertex (hg : g.IndexInRange) (id : VertexId) (name : String)
    (parallelism : Nat) : (g.addVertex id name parallelism).IndexInRange := by
  have hlength : (g.addVertex id name parallelism).vertices.length =
      g.vertices.length + 1 := List.length_append
  intro k pos hpos
  rw [hlength]
  exact lt_succ_of_insert hg k pos hpos

theorem connect (hg : g.IndexInRange) {dataSet : DataSetId}
    {producer consumer : VertexId} {pattern : Pattern} {kind : ResultKind}
    (h : g.connect dataSet producer consumer pattern kind = .ok g') :
    g'.IndexInRange := by
  unfold JobGraph.connect at h
  by_cases hne : producer = consumer
  · simp [hne, bind, Except.bind, throw, throwThe, MonadExceptOf.throw] at h
  rw [if_neg hne] at h
  obtain ⟨source, -, hrest⟩ := bind_eq_ok_iff.mp h
  obtain ⟨sink, -, hret⟩ := bind_eq_ok_iff.mp hrest
  cases hret
  exact hg.congr rfl (by simp)

theorem updateVertex (hg : g.IndexInRange) {id : VertexId}
    {f : JobVertex → JobVertex} (h : g.updateVertex id f = .ok g') :
    g'.IndexInRange := by
  obtain ⟨pos, -, hret⟩ := bind_eq_ok_iff.mp h
  cases hret
  exact hg.congr rfl (List.length_modify ..)

/-- A new index leads to vertices, whatever the old one did. -/
theorem reindex (g : JobGraph) : g.reindex.IndexInRange := by
  unfold IndexInRange JobGraph.reindex
  refine List.foldlRecOn (motive := fun index : Std.TreeMap VertexId Nat =>
    ∀ (id : VertexId) (pos : Nat), index[id]? = some pos →
      pos < g.vertices.length) _ _ ?_ ?_
  · intro id pos hpos
    simp at hpos
  · intro index hindex x hx id pos hpos
    rw [Std.TreeMap.getElem?_insert] at hpos
    split at hpos
    · cases hpos
      simpa using List.snd_lt_add_of_mem_zipIdx hx
    · exact hindex id pos hpos

end IndexInRange

/-- The index of a graph leads to vertices, however the graph came about. -/
theorem Obtained.indexInRange {g : JobGraph} (h : g.Obtained) :
    g.IndexInRange := by
  induction h with
  | read name vertices =>
    intro id pos hpos
    simp at hpos
  | rename name _ ih => exact ih.congr rfl rfl
  | addVertex id name parallelism _ ih => exact ih.addVertex id name parallelism
  | connect _ h ih => exact ih.connect h
  | setCoLocationGroup _ h ih => exact ih.updateVertex h
  | setSnapshotGroup _ h ih => exact ih.updateVertex h
  | setParallelism _ h ih => exact ih.updateVertex h
  | @reindex g _ _ => exact IndexInRange.reindex g

end JobGraph

namespace Topology

/-- Every task is a member of one region, and looking up the region of a task
finds that one. -/
structure EachInOneRegion (t : Topology) : Prop where
  existsUnique : ∀ i < t.tasks.size, ∃! r : RegionIndex,
    ∃ region, t.regions[r]? = some region ∧ i ∈ region.tasks
  regionOf : ∀ (i : TaskIndex) (r : RegionIndex), t.regionOf[i]? = some r ↔
    ∃ region, t.regions[r]? = some region ∧ i ∈ region.tasks
  /-- Only tasks are members. -/
  size : t.regionOf.size = t.tasks.size
  index : ∀ (r : RegionIndex) region, t.regions[r]? = some region →
    region.index = r
  nodup : ∀ region ∈ t.regions, region.tasks.Nodup
  regionOfTask : ∀ (id : TaskId) (i : TaskIndex), t.taskIndex[id]? = some i →
    ∃ region, t.regionOfTask id = .ok region ∧ i ∈ region.tasks

theorem Regioned.eachInOneRegion {t : Topology} (h : t.Regioned)
    (hindex : ∀ (id : TaskId) (i : TaskIndex),
      t.taskIndex[id]? = some i → i < t.tasks.size) : t.EachInOneRegion := by
  have hregionOf : ∀ i r : Nat, t.regionOf[i]? = some r ↔
      ∃ region, t.regions[r]? = some region ∧ i ∈ region.tasks := by
    intro i r
    constructor
    · intro hr
      have hregion := Array.getElem?_eq_getElem (h.lt i r hr)
      exact ⟨_, hregion, (h.mem_tasks r _ hregion i).mpr hr⟩
    · rintro ⟨region, hregion, hi⟩
      exact (h.mem_tasks r region hregion i).mp hi
  exact
    { existsUnique := by
        intro i hi
        obtain ⟨r, hr⟩ := h.exists_regionOf hi
        refine ⟨r, (hregionOf i r).mp hr, fun s hs => ?_⟩
        exact Option.some.inj (((hregionOf i s).mpr hs).symm.trans hr)
      regionOf := hregionOf
      size := h.size
      index := h.index
      nodup := by
        intro region hregion
        obtain ⟨r, hr⟩ := Array.mem_iff_getElem?.mp hregion
        exact (h.tasks_ascending r region hr).imp Nat.ne_of_lt
      regionOfTask := by
        intro id i hi
        obtain ⟨r, hr⟩ := h.exists_regionOf (hindex id i hi)
        obtain ⟨region, hregion, hmem⟩ := (hregionOf i r).mp hr
        refine ⟨region, ?_, hmem⟩
        simp [Topology.regionOfTask, taskAt, hi, hr, hregion, bind,
          Except.bind, pure, Except.pure] }

end Topology

namespace Checked

/-! ## The checked build -/

/-- Checks that equal subtasks of co-located operators share a region. The
region of every such task is there. -/
def checkCoLocation (t : Topology) : Except Stop Unit := do
  (t.operators.filter (·.coLocationGroup.isSome)).forM fun operator =>
    operator.tasks.forM fun i => discard (reach t.regionOf[i]?)
  returned t.checkCoLocation

/-- Expands a job graph into its topology and pipelined regions. -/
def ofJobGraph (graph : JobGraph) : Except Stop Topology := do
  let order ← sorted graph
  let t ← (order.map (·.id)).foldlM addOperator { graph }
  let t ← computeRegions t
  checkCoLocation t
  return t

section Build

variable {g : JobGraph} {t : Topology}

theorem checkCoLocation_eq_returned
    (htasks : ∀ o ∈ t.operators, ∀ i ∈ o.tasks, i < t.regionOf.size) :
    checkCoLocation t = returned t.checkCoLocation := by
  have hfound : (t.operators.filter (·.coLocationGroup.isSome)).forM
      (fun operator => operator.tasks.forM fun i =>
        discard (reach t.regionOf[i]?)) = .ok ⟨⟩ := by
    rw [forM_eq_ok_iff]
    intro o ho
    exact forM_reach (htasks o (List.mem_filter.mp ho).1)
  rw [checkCoLocation, hfound, ok_bind]

/-- Regions change nothing that the expansion has stored. -/
theorem Expanded.regioned (h : Expanded g t) : t.computeRegions.Regioned :=
  Topology.regioned_computeRegions h.regionMembers_perm

theorem Expanded.checkCoLocation_eq_returned (h : Expanded g t) :
    checkCoLocation t.computeRegions =
      returned t.computeRegions.checkCoLocation := by
  apply Checked.checkCoLocation_eq_returned
  intro o ho i hi
  rw [Topology.operators_computeRegions] at ho
  rw [h.regioned.size, Topology.tasks_computeRegions]
  exact h.lt_of_mem_tasks ho hi

/-- What holds once all vertices of a sorted graph are expanded. -/
theorem expanded_of_foldlM (hpos : ∀ v ∈ g.vertices, 0 < v.parallelism)
    {ids : List VertexId}
    (h : ids.foldlM Topology.addOperator { graph := g } = .ok t) :
    Expanded g t :=
  foldlM_ok_induction (P := fun _ t => Expanded g t)
    (fun _ _ _ _ _ _ ht hok => ht.addOperator hpos hok) (expanded_start g) h

/-- Building comes to a topology or to an error of its own. -/
theorem ofJobGraph_eq_returned (hg : g.IndexInRange) :
    ofJobGraph g = returned (Topology.ofJobGraph g) := by
  refine bind_eq_returned (sorted_eq_returned hg) fun order horder => ?_
  have hpos := JobGraph.parallelism_pos horder
  refine bind_eq_returned (foldlM_eq_returned (P := Expanded g)
    (fun id _ t ht => ht.addOperator_eq_returned hg id)
    (fun id _ t ht t' hok => ht.addOperator hpos hok)
    (expanded_start g)) fun t hfold => ?_
  have ht := expanded_of_foldlM hpos hfold
  have hcheck := ht.checkCoLocation_eq_returned
  rw [computeRegions_eq_ok ht, ok_bind]
  dsimp only
  generalize t.computeRegions = t' at hcheck ⊢
  exact bind_eq_returned hcheck fun _ _ => rfl

/-- In a topology that is built, every task is in one region. -/
theorem eachInOneRegion_of_ofJobGraph (h : Topology.ofJobGraph g = .ok t) :
    t.EachInOneRegion := by
  obtain ⟨order, t0, hsorted, hfold, -, rfl⟩ :=
    Topology.ofJobGraph_eq_ok_iff.mp h
  have ht := expanded_of_foldlM (JobGraph.parallelism_pos hsorted) hfold
  apply ht.regioned.eachInOneRegion
  rw [Topology.taskIndex_computeRegions, Topology.tasks_computeRegions]
  exact ht.taskIndex

/-- Building a topology is safe for all graphs. It returns a topology or an
error, without a lookup that finds nothing, a counter below zero, a division
by zero or a loop that is cut off, and every task of the topology is in one
region. -/
theorem ofJobGraph_of_obtained (h : g.Obtained) :
    ofJobGraph g = returned (Topology.ofJobGraph g) ∧
      ∀ t, Topology.ofJobGraph g = .ok t → t.EachInOneRegion :=
  ⟨ofJobGraph_eq_returned h.indexInRange,
    fun _ => eachInOneRegion_of_ofJobGraph⟩

end Build

/-- Three vertices as they may be read, two of them with one id, and with one
dataset on both edges. -/
def twinGraph : JobGraph :=
  let input : JobEdge :=
    { source := ⟨⟨3⟩⟩, producer := ⟨⟨1⟩⟩, target := ⟨⟨2⟩⟩
      pattern := .pointwise, kind := .pipelined }
  let read : JobGraph :=
    { name := "twins"
      vertices := [
        { id := ⟨⟨1⟩⟩, name := "source", parallelism := 2 },
        { id := ⟨⟨2⟩⟩, name := "first", parallelism := 2, inputs := [input] },
        { id := ⟨⟨2⟩⟩, name := "last", parallelism := 3, inputs := [input] }] }
  read.reindex

/-- The vertex that the id leads to is expanded twice. -/
theorem ofJobGraph_twinGraph : twinGraph.Obtained ∧
    ∃ t, Topology.ofJobGraph twinGraph = .ok t ∧
      t.regionOf = #[0, 1, 0, 0, 1, 0, 0, 1] ∧
      ofJobGraph twinGraph = .ok t ∧ t.EachInOneRegion := by
  have hobtained : twinGraph.Obtained := .reindex (.read "twins" _)
  have hregions : (Topology.ofJobGraph twinGraph).toOption.map (·.regionOf) =
      some #[0, 1, 0, 0, 1, 0, 0, 1] := by decide +kernel
  obtain ⟨hchecked, hregioned⟩ := ofJobGraph_of_obtained hobtained
  refine ⟨hobtained, ?_⟩
  cases ht : Topology.ofJobGraph twinGraph with
  | error e => simp [ht, Except.toOption] at hregions
  | ok t =>
    rw [ht] at hchecked hregions
    exact ⟨t, rfl, Option.some.inj hregions, hchecked, hregioned t ht⟩

end Checked

end ControlPlane
