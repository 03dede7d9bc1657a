import Mathlib
import ControlPlane.Proofs.JobGraph.Outputs

/-!
# Job graphs after any calls

A call that builds a job graph changes it in place. It looks up what it needs,
and may fail there, before it changes anything. So after any calls, failing
ones included, the parts of the graph belong together: the index finds every
vertex, an edge is stored at its target, and its dataset is listed once, by
its producer.
-/

namespace ControlPlane

namespace JobGraph

/-! ## Changes in place -/

/-- A program that changes a job graph. What it has changed when it fails
stays changed. -/
abbrev Editing := EStateM Error JobGraph

namespace Editing

/-- The position of a vertex. -/
def position (id : VertexId) : Editing Nat := do
  match (← get).position id with
  | .ok pos => return pos
  | .error e => throw e

/-- Changes the vertex at a position. -/
def change (pos : Nat) (f : JobVertex → JobVertex) : Editing Unit :=
  modify fun g => { g with vertices := g.vertices.modify pos f }

/-- Changes the vertex with an id. -/
def updateVertex (id : VertexId) (f : JobVertex → JobVertex) :
    Editing Unit := do
  let pos ← position id
  change pos f

/-- Wires a producer into a consumer: the one lists the dataset before the
other stores the edge. -/
def connect (edge : JobEdge) : Editing Unit := do
  if edge.producer = edge.target then
    throw (.invalidGraph (.selfLoop edge.producer))
  let source ← position edge.producer
  let sink ← position edge.target
  change source fun v => { v with produced := v.produced ++ [edge.source] }
  change sink fun v => { v with inputs := v.inputs ++ [edge] }

variable {g : JobGraph}

theorem run_bind {α β : Type} (x : Editing α) (f : α → Editing β) :
    (x >>= f).run g =
      match x.run g with
      | .ok a g' => (f a).run g'
      | .error e g' => .error e g' := by
  show EStateM.bind x f g = _
  rw [EStateM.bind, EStateM.run]
  cases x g <;> rfl

theorem run_position (id : VertexId) :
    (position id).run g =
      match g.position id with
      | .ok pos => .ok pos g
      | .error e => .error e g := by
  show EStateM.run (match g.position id with
    | .ok pos => pure pos
    | .error e => throw e : Editing Nat) g = _
  cases g.position id <;> rfl

/-- The vertex is looked up before it is changed. -/
theorem run_updateVertex (id : VertexId) (f : JobVertex → JobVertex) :
    (updateVertex id f).run g =
      match g.updateVertex id f with
      | .ok g' => .ok () g'
      | .error e => .error e g := by
  rw [updateVertex, run_bind, run_position, JobGraph.updateVertex]
  cases g.position id <;> rfl

/-- Both ends are looked up before one of them is changed. -/
theorem run_connect (edge : JobEdge) :
    (connect edge).run g =
      match g.connect edge.source edge.producer edge.target edge.pattern
        edge.kind with
      | .ok g' => .ok () g'
      | .error e => .error e g := by
  unfold connect JobGraph.connect
  by_cases hloop : edge.producer = edge.target
  · rw [if_pos hloop, if_pos hloop]
    rfl
  · rw [if_neg hloop, if_neg hloop]
    rw [run_bind, run_position]
    cases hsource : g.position edge.producer with
    | error e => rfl
    | ok source =>
      dsimp only
      rw [run_bind, run_position]
      cases hsink : g.position edge.target <;> rfl

end Editing

/-! ## Calls -/

/-- A call that builds a job graph. The ids of what is new are drawn by the
caller. -/
inductive Call where
  | addVertex (id : VertexId) (name : String) (parallelism : Nat)
  | connect (edge : JobEdge)
  | setCoLocationGroup (id : VertexId) (group : String)
  | setSnapshotGroup (id : VertexId) (group : String)
  | reindex

namespace Call

/-- What a call does to the graph. -/
def edit : Call → Editing Unit
  | addVertex id name parallelism => modify (·.addVertex id name parallelism)
  | connect edge => Editing.connect edge
  | setCoLocationGroup id group =>
    Editing.updateVertex id ({ · with coLocationGroup := some group })
  | setSnapshotGroup id group =>
    Editing.updateVertex id ({ · with snapshotGroup := some group })
  | reindex => modify JobGraph.reindex

/-- The graph that a call gives, or why it fails. -/
def result (g : JobGraph) : Call → Except Error JobGraph
  | addVertex id name parallelism => .ok (g.addVertex id name parallelism)
  | connect e => g.connect e.source e.producer e.target e.pattern e.kind
  | setCoLocationGroup id group => g.setCoLocationGroup id group
  | setSnapshotGroup id group => g.setSnapshotGroup id group
  | reindex => .ok g.reindex

/-- The graph after a call, whether it has failed or not. -/
def run (g : JobGraph) (c : Call) : JobGraph :=
  match c.edit.run g with
  | .ok _ g' => g'
  | .error _ g' => g'

/-- What a call draws is not in the graph yet. -/
def Fresh (g : JobGraph) : Call → Prop
  | addVertex id _ _ => ∀ v ∈ g.vertices, v.id ≠ id
  | connect edge => ∀ e ∈ g.edges, e.source ≠ edge.source
  | setCoLocationGroup _ _ | setSnapshotGroup _ _ | reindex => True

end Call

/-- The graph after some calls. -/
def runAll (g : JobGraph) (calls : List Call) : JobGraph :=
  calls.foldl Call.run g

/-- Whatever some calls draw is new when they are made. -/
def DrawFresh (g : JobGraph) : List Call → Prop
  | [] => True
  | c :: calls => c.Fresh g ∧ DrawFresh (c.run g) calls

instance Call.decidableFresh (g : JobGraph) : (c : Call) → Decidable (c.Fresh g)
  | addVertex id _ _ => inferInstanceAs (Decidable (∀ v ∈ g.vertices, v.id ≠ id))
  | connect edge =>
    inferInstanceAs (Decidable (∀ e ∈ g.edges, e.source ≠ edge.source))
  | setCoLocationGroup _ _ | setSnapshotGroup _ _ | reindex => .isTrue trivial

instance decidableDrawFresh : (g : JobGraph) → (calls : List Call) →
    Decidable (DrawFresh g calls)
  | _, [] => .isTrue trivial
  | g, c :: calls =>
    have := decidableDrawFresh (c.run g) calls
    inferInstanceAs (Decidable (c.Fresh g ∧ DrawFresh (c.run g) calls))

section Calls

variable {g : JobGraph}

/-- A call gives the whole result, or fails and changes nothing. -/
theorem run_edit (c : Call) :
    c.edit.run g =
      match c.result g with
      | .ok g' => .ok () g'
      | .error e => .error e g := by
  cases c with
  | addVertex => rfl
  | connect edge => exact Editing.run_connect edge
  | setCoLocationGroup id group => exact Editing.run_updateVertex id _
  | setSnapshotGroup id group => exact Editing.run_updateVertex id _
  | reindex => rfl

theorem Built.run (h : g.Built) {c : Call} (fresh : c.Fresh g) :
    (c.run g).Built := by
  rw [Call.run, run_edit]
  cases hresult : c.result g with
  | error e => exact h
  | ok g' =>
    cases c with
    | addVertex id name parallelism =>
      cases hresult
      exact .addVertex name parallelism h fresh
    | connect edge => exact .connect h fresh hresult
    | setCoLocationGroup => exact .setCoLocationGroup h hresult
    | setSnapshotGroup => exact .setSnapshotGroup h hresult
    | reindex =>
      cases hresult
      exact .reindex h

theorem Built.runAll (h : g.Built) {calls : List Call}
    (fresh : g.DrawFresh calls) : (g.runAll calls).Built := by
  induction calls generalizing g with
  | nil => exact h
  | cons c calls ih => exact ih (h.run fresh.1) fresh.2

end Calls

/-! ## The parts of a graph -/

/-- The index, the edges and the datasets of a graph belong together. -/
structure Interlinked (g : JobGraph) : Prop where
  /-- The index has the position of every vertex, and nothing else. -/
  index : ∀ (id : VertexId) (pos : Nat), g.positions[id]? = some pos ↔
    ∃ v, g.vertices[pos]? = some v ∧ v.id = id
  /-- An edge is stored at its target, and comes from another vertex. -/
  stored : ∀ v ∈ g.vertices, ∀ e ∈ v.inputs,
    e.target = v.id ∧ e.producer ≠ e.target ∧
      ∃ w ∈ g.vertices, w.id = e.producer
  /-- No two edges carry one dataset. -/
  sources : (g.edges.map (·.source)).Nodup
  /-- The dataset of an edge is listed once, by the producer. -/
  listed : ∀ e ∈ g.edges, ∀ w ∈ g.vertices,
    w.produced.count e.source = if w.id = e.producer then 1 else 0
  /-- A vertex lists the datasets of edges that leave it. -/
  carried : ∀ w ∈ g.vertices, ∀ dataSet ∈ w.produced,
    ∃ e ∈ g.edges, e.source = dataSet ∧ e.producer = w.id

/-- What a call on a graph takes, and what it leaves when it fails. -/
structure FailsClean (g : JobGraph) : Prop where
  /-- A call in place gives what the function on graphs gives. -/
  result : ∀ c : Call, (∃ g', c.result g = .ok g' ∧ c.edit.run g = .ok () g') ∨
    ∃ e, c.result g = .error e ∧ c.edit.run g = .error e g
  /-- Connecting fails if both ends are one, or one of them is unknown. -/
  connect : ∀ edge : JobEdge,
    (∃ e g', (Call.connect edge).edit.run g = .error e g') ↔
      edge.producer = edge.target ∨
        (∀ v ∈ g.vertices, v.id ≠ edge.producer) ∨
        ∀ v ∈ g.vertices, v.id ≠ edge.target
  unchanged : ∀ (c : Call) e g', c.edit.run g = .error e g' →
    g' = g ∧ c.run g = g

section Parts

variable {g : JobGraph}

/-- A vertex lists the dataset of an edge once if the edge comes from it. -/
theorem WellFormed.count_produced (hg : g.WellFormed) (hr : g.Recorded)
    {e : JobEdge} (he : e ∈ g.edges) {w : JobVertex} (hw : w ∈ g.vertices) :
    w.produced.count e.source = if w.id = e.producer then 1 else 0 := by
  obtain ⟨v, hv, hev⟩ := mem_edges.mp he
  have hread : e.source ∈ v.inputs.map (·.source) := List.mem_map_of_mem hev
  calc w.produced.count e.source
      = (w.produced.filter (· ∈ v.inputs.map (·.source))).count e.source :=
        (List.count_filter (by simpa using hread)).symm
    _ = ((v.inputs.filter (·.producer = w.id)).map (·.source)).count
          e.source := by rw [hr.order w hw v hv]
    _ = if w.id = e.producer then 1 else 0 := by
      split
      · rename_i hproducer
        have hnodup := hg.sources
        rw [edges, List.map_flatMap, List.nodup_flatMap] at hnodup
        refine List.count_eq_one_of_mem
          ((hnodup.1 v hv).sublist (List.filter_sublist.map _))
          (List.mem_map_of_mem (List.mem_filter.mpr ⟨hev, ?_⟩))
        simp [hproducer]
      · rename_i hproducer
        rw [List.count_eq_zero]
        intro hmem
        obtain ⟨e', he', hsource⟩ := List.mem_map.mp hmem
        obtain ⟨he', hw'⟩ := List.mem_filter.mp he'
        have heq := hg.edge_inj (mem_edges.mpr ⟨v, hv, he'⟩) he hsource
        rw [heq, decide_eq_true_eq] at hw'
        exact hproducer hw'.symm

theorem WellFormed.interlinked (hg : g.WellFormed) (hr : g.Recorded) :
    g.Interlinked where
  index id pos := by
    rw [hg.positions id pos, idAt, Option.map_eq_some_iff]
  stored v hv e he := by
    obtain ⟨hne, w, hw, hid⟩ := hg.producer v hv e he
    have htarget := hg.target v hv e he
    exact ⟨htarget, htarget ▸ hne, w, hw, hid⟩
  sources := hg.sources
  listed _ he _ hw := hg.count_produced hr he hw
  carried w hw dataSet hd := by
    obtain ⟨e, he, rfl⟩ := hr.edge w hw dataSet hd
    refine ⟨e, he, rfl, ?_⟩
    have hcount := hg.count_produced hr he hw
    by_contra hne
    rw [if_neg (Ne.symm hne), List.count_eq_zero] at hcount
    exact hcount hd

/-- Two different vertices of the graph can be connected. -/
theorem WellFormed.exists_connect_iff (hg : g.WellFormed) (edge : JobEdge) :
    (∃ g', g.connect edge.source edge.producer edge.target edge.pattern
        edge.kind = .ok g') ↔
      edge.producer ≠ edge.target ∧
        (∃ v ∈ g.vertices, v.id = edge.producer) ∧
        ∃ v ∈ g.vertices, v.id = edge.target := by
  constructor
  · rintro ⟨g', hok⟩
    obtain ⟨hne, source, sink, hsource, hsink, -⟩ :=
      JobGraph.of_connect_eq_ok hok
    exact ⟨hne, hg.exists_of_position hsource, hg.exists_of_position hsink⟩
  · rintro ⟨hne, hproducer, htarget⟩
    obtain ⟨source, -, hsource⟩ := hg.exists_position hproducer
    obtain ⟨sink, -, hsink⟩ := hg.exists_position htarget
    simp only [JobGraph.connect, if_neg hne, hsource, hsink]
    exact ⟨_, rfl⟩

theorem WellFormed.failsClean (hg : g.WellFormed) : g.FailsClean where
  result c := by
    rw [run_edit]
    cases c.result g with
    | ok g' => exact .inl ⟨g', rfl, rfl⟩
    | error e => exact .inr ⟨e, rfl, rfl⟩
  connect edge := by
    have hok := hg.exists_connect_iff edge
    rw [run_edit, Call.result]
    cases hresult : g.connect edge.source edge.producer edge.target
        edge.pattern edge.kind with
    | ok g' =>
      obtain ⟨hne, ⟨v, hv, hproducer⟩, w, hw, htarget⟩ :=
        hok.mp ⟨g', hresult⟩
      refine iff_of_false (by simp) ?_
      rintro (heq | hunknown | hunknown)
      · exact hne heq
      · exact hunknown v hv hproducer
      · exact hunknown w hw htarget
    | error e =>
      refine iff_of_true ⟨e, g, rfl⟩ ?_
      by_contra hall
      push Not at hall
      obtain ⟨g', hg'⟩ := hok.mpr hall
      rw [hresult] at hg'
      cases hg'
  unchanged c e g' h := by
    have hrun : c.run g = g' := by rw [Call.run, h]
    rw [run_edit] at h
    cases hresult : c.result g with
    | ok g'' => simp [hresult] at h
    | error e' =>
      rw [hresult] at h
      cases h
      exact ⟨rfl, hrun⟩

end Parts

/-- After any calls that draw fresh ids, failing ones included, the parts of
the graph belong together, and a call that fails leaves it as it is. -/
theorem interlinked_runAll (name : String) {calls : List Call}
    (fresh : DrawFresh { name } calls) :
    (runAll { name } calls).Interlinked ∧
      (runAll { name } calls).FailsClean := by
  have hbuilt := (Built.empty name).runAll fresh
  exact ⟨hbuilt.wellFormed.interlinked hbuilt.recorded,
    hbuilt.wellFormed.failsClean⟩

/-- A source that feeds a sink twice. In between, an edge is refused because
its target is not there yet, one because it is a loop, and a group because
its vertex is unknown. -/
def fitfulCalls : List Call :=
  [.addVertex ⟨⟨1⟩⟩ "source" 1,
    .connect ⟨⟨⟨10⟩⟩, ⟨⟨1⟩⟩, ⟨⟨2⟩⟩, .pointwise, .pipelined⟩,
    .addVertex ⟨⟨2⟩⟩ "sink" 2,
    .connect ⟨⟨⟨11⟩⟩, ⟨⟨1⟩⟩, ⟨⟨2⟩⟩, .pointwise, .pipelined⟩,
    .reindex,
    .connect ⟨⟨⟨12⟩⟩, ⟨⟨2⟩⟩, ⟨⟨2⟩⟩, .pointwise, .blocking⟩,
    .setSnapshotGroup ⟨⟨3⟩⟩ "sinks",
    .connect ⟨⟨⟨13⟩⟩, ⟨⟨1⟩⟩, ⟨⟨2⟩⟩, .allToAll, .blocking⟩]

theorem interlinked_runAll_fitfulCalls :
    DrawFresh { name := "fitful" } fitfulCalls ∧
    (runAll { name := "fitful" } fitfulCalls).Interlinked ∧
    (runAll { name := "fitful" } fitfulCalls).FailsClean ∧
    (runAll { name := "fitful" } fitfulCalls).vertices.map (·.produced) =
      [[⟨⟨11⟩⟩, ⟨⟨13⟩⟩], []] := by
  have fresh : DrawFresh { name := "fitful" } fitfulCalls := by
    decide +kernel
  obtain ⟨hlinked, hclean⟩ := interlinked_runAll "fitful" fresh
  exact ⟨fresh, hlinked, hclean, by decide +kernel⟩

end JobGraph

end ControlPlane
