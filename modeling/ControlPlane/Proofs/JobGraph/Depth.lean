import Mathlib
import ControlPlane.Proofs.JobGraph.Acyclic

/-!
# The order of a sort

The queue is a line in which vertices stand by depth: a vertex joins it
when the last of its producers is taken, so it is one edge behind that one,
and whatever stands in the line has its producers before the vertex taken
last. Vertices without inputs are in the line from the start.
-/

namespace ControlPlane

namespace JobGraph

/-! ## Depth -/

/-- A path with a number of edges leads to a vertex. -/
inductive PathTo (g : JobGraph) : Nat → VertexId → Prop where
  | start (id : VertexId) : PathTo g 0 id
  | step {n : Nat} {a b : VertexId} (h : PathTo g n a) (hab : g.LeadsTo a b) :
    PathTo g (n + 1) b

/-- The number of edges on the longest path to a vertex. -/
noncomputable def depth (g : JobGraph) (id : VertexId) : Nat :=
  sSup {n | g.PathTo n id}

/-- No path to one vertex is longer than all paths to another. -/
def NotBelow (g : JobGraph) (a b : VertexId) : Prop :=
  ∀ n, g.PathTo n a → ∃ m, n ≤ m ∧ g.PathTo m b

variable {g : JobGraph}

/-- A path to a vertex that is taken passes only places before it. -/
theorem WellFormed.le_of_pathTo (hg : g.WellFormed) {n q : Nat}
    {id : VertexId} (h : g.PathTo n id) (hq : g.takenAt q = some id) :
    n ≤ q := by
  induction h generalizing q with
  | start id => exact Nat.zero_le q
  | step _ hab ih =>
    obtain ⟨p, hp, hpa⟩ := hg.takenAt_of_leadsTo hab hq
    have hle := ih hpa
    omega

theorem WellFormed.isGreatest_depth (hg : g.WellFormed) {q : Nat}
    {id : VertexId} (hq : g.takenAt q = some id) :
    IsGreatest {n | g.PathTo n id} (g.depth id) := by
  have hbounded : BddAbove {n | g.PathTo n id} :=
    ⟨q, fun _ hn => hg.le_of_pathTo hn hq⟩
  exact ⟨Nat.sSup_mem ⟨0, .start id⟩ hbounded,
    fun _ hn => le_csSup hbounded hn⟩

theorem NotBelow.depth_le {a b : VertexId} (h : g.NotBelow a b)
    (ha : IsGreatest {n | g.PathTo n a} (g.depth a))
    (hb : IsGreatest {n | g.PathTo n b} (g.depth b)) :
    g.depth a ≤ g.depth b := by
  obtain ⟨m, hle, hm⟩ := h _ ha.1
  exact hle.trans (hb.2 hm)

/-! ## The line -/

theorem mem_dependents {pos reader : Nat} :
    reader ∈ g.dependents pos ↔
      ∃ e ∈ g.inputsAt reader, g.positions[e.producer]? = some pos := by
  rw [← List.count_pos_iff, count_dependents, List.countP_pos_iff]
  simp

namespace Sorting

/-- The vertices taken, and those ready behind them. -/
def line (s : Sorting) : List Nat := s.taken ++ s.queue

/-- Released vertices join the line at its end. -/
theorem exists_line_releaseAll (left : List Nat) (s : Sorting) :
    ∃ new, new ⊆ left ∧ (left.foldl release s).line = s.line ++ new := by
  induction left generalizing s with
  | nil => exact ⟨[], List.Subset.refl [], by simp⟩
  | cons pos left ih =>
    obtain ⟨new, hnew, hline⟩ := ih (s.release pos)
    rw [List.foldl_cons, hline]
    unfold release
    dsimp only
    split
    · refine ⟨pos :: new, List.cons_subset_cons pos hnew, ?_⟩
      simp [line]
    · exact ⟨new, List.subset_cons_of_subset pos hnew, rfl⟩

/-- A step leaves the line as it is, and adds vertices that read from the one
taken. -/
theorem exists_line_step {s : Sorting} {pos : Nat} {queue : List Nat}
    (hq : s.queue = pos :: queue) :
    ∃ new, new ⊆ g.dependents pos ∧
      ((g.dependents pos).foldl release
        { s with queue, taken := s.taken ++ [pos] }).line = s.line ++ new := by
  obtain ⟨new, hnew, hline⟩ := exists_line_releaseAll (g.dependents pos)
    { s with queue, taken := s.taken ++ [pos] }
  refine ⟨new, hnew, hline.trans ?_⟩
  simp [line, hq]

/-- The line is sorted by depth. -/
def Layered (g : JobGraph) (s : Sorting) : Prop :=
  s.line.Pairwise fun p q => ∀ a b, g.idAt p = some a → g.idAt q = some b →
    g.NotBelow a b

/-- Nothing that is ready is below the vertices that read from the one taken
last. -/
theorem Layered.notBelow_dependent {s : Sorting} {pos : Nat}
    (hg : g.WellFormed) (h : Layered g s) (hpos : pos ∈ s.queue)
    {p q : Nat} (hp : g.pendingInputs (s.taken ++ [pos]) p = 0)
    (hq : q ∈ g.dependents pos) {a b : VertexId} (ha : g.idAt p = some a)
    (hb : g.idAt q = some b) : g.NotBelow a b := by
  obtain ⟨e, he, hsource⟩ := mem_dependents.mp hq
  have hlast := (hg.leadsTo_iff hb).mpr ⟨e, he, rfl⟩
  have hlastid := (hg.positions e.producer pos).mp hsource
  intro n hn
  cases hn with
  | start => exact ⟨0, Nat.le_refl 0, .start b⟩
  | @step n c _ hc hca =>
    -- The producer `c` is taken, so it is not below the one taken last.
    have hnot : g.NotBelow c e.producer := by
      obtain ⟨e', he', rfl⟩ := (hg.leadsTo_iff ha).mp hca
      obtain ⟨r, hr, hproducer⟩ := pendingInputs_eq_zero.mp hp e' he'
      have hrid := (hg.positions e'.producer r).mp hproducer
      rcases List.mem_append.mp hr with hr | hr
      · exact (List.pairwise_append.mp h).2.2 r hr pos hpos _ _ hrid hlastid
      · rw [List.mem_singleton.mp hr, hlastid, Option.some.injEq] at hrid
        rw [hrid]
        exact fun n hn => ⟨n, Nat.le_refl n, hn⟩
    obtain ⟨m, hle, hm⟩ := hnot n hc
    exact ⟨m + 1, Nat.succ_le_succ hle, .step hm hlast⟩

theorem Layered.step {s : Sorting} {pos : Nat} {queue : List Nat}
    (hg : g.WellFormed) (hs : Sound g s []) (hq : s.queue = pos :: queue)
    (h : Layered g s) :
    Layered g ((g.dependents pos).foldl release
      { s with queue, taken := s.taken ++ [pos] }) := by
  have hsound := (hs.take hq).releaseAll fun p hp => dependents_lt hp
  obtain ⟨new, hnew, hline⟩ := exists_line_step (g := g) hq
  have hready : ∀ p ∈ s.line ++ new,
      g.pendingInputs (s.taken ++ [pos]) p = 0 := by
    intro p hp
    have hpending := hsound.pendingInputs_of_mem (hline ▸ hp)
    rwa [taken_releaseAll] at hpending
  have hlast : ∀ p ∈ s.line ++ new, ∀ q ∈ new, ∀ a b, g.idAt p = some a →
      g.idAt q = some b → g.NotBelow a b := fun p hp q hqn _ _ ha hb =>
    h.notBelow_dependent hg (by simp [hq]) (hready p hp) (hnew hqn) ha hb
  rw [Layered, hline, List.pairwise_append]
  refine ⟨h, ?_, fun p hp => hlast p (List.mem_append_left _ hp)⟩
  exact List.pairwise_of_forall_mem_list fun p hp q hqn =>
    hlast p (List.mem_append_right _ hp) q hqn

/-- Among the vertices in the line, those without inputs are in it from the
start. -/
def InputsFirst (g : JobGraph) (s : Sorting) : Prop :=
  s.line.filter (fun pos => (g.inputsAt pos).isEmpty) = (Sorting.start g).queue

theorem layered_start (hg : g.WellFormed) : Layered g (Sorting.start g) := by
  refine List.pairwise_of_forall_mem_list fun p hp q _ a b ha _ => ?_
  obtain ⟨v, hv, hempty⟩ := mem_queue_start.mp hp
  intro n hn
  cases hn with
  | start => exact ⟨0, Nat.le_refl 0, .start b⟩
  | step _ hca =>
    obtain ⟨e, he, -⟩ := (hg.leadsTo_iff ha).mp hca
    simp [inputsAt, hv, hempty] at he

theorem inputsFirst_start : InputsFirst g (Sorting.start g) := by
  have hline : (Sorting.start g).line = (Sorting.start g).queue := by
    rw [line, Sorting.start, List.nil_append]
  rw [InputsFirst, hline, List.filter_eq_self]
  intro pos hpos
  obtain ⟨v, hv, hempty⟩ := mem_queue_start.mp hpos
  simp [inputsAt, hv, hempty]

theorem InputsFirst.step {s : Sorting} {pos : Nat} {queue : List Nat}
    (hq : s.queue = pos :: queue) (h : InputsFirst g s) :
    InputsFirst g ((g.dependents pos).foldl release
      { s with queue, taken := s.taken ++ [pos] }) := by
  obtain ⟨new, hnew, hline⟩ := exists_line_step (g := g) hq
  have hnone : new.filter (fun pos => (g.inputsAt pos).isEmpty) = [] := by
    rw [List.filter_eq_nil_iff]
    intro q hqn hempty
    obtain ⟨e, he, -⟩ := mem_dependents.mp (hnew hqn)
    rw [List.isEmpty_iff.mp hempty] at he
    cases he
  rw [InputsFirst, hline, List.filter_append, hnone, List.append_nil]
  exact h

end Sorting

theorem line_sorting (g : JobGraph) : g.sorting.line = g.sorting.taken := by
  rw [Sorting.line, queue_sorting, List.append_nil]

theorem WellFormed.layered_sorting (hg : g.WellFormed) :
    Sorting.Layered g g.sorting :=
  (Sorting.sound_start.run_induction (fun _ _ _ hs hq h => h.step hg hs hq)
    (Sorting.layered_start hg) g.vertices.length).2

theorem inputsFirst_sorting (g : JobGraph) : Sorting.InputsFirst g g.sorting :=
  (Sorting.sound_start.run_induction (fun _ _ _ _ hq h => h.step hq)
    Sorting.inputsFirst_start g.vertices.length).2

/-! ## What a graph is sorted into -/

/-- The vertices in the order of their depth, producers first. -/
structure SortedByDepth (g : JobGraph) (order : List JobVertex) : Prop where
  perm : order.Perm g.vertices
  upstream : ∀ (q : Nat) v, order[q]? = some v → ∀ e ∈ v.inputs,
    ∃ p < q, order[p]?.map (·.id) = some e.producer
  longest : ∀ v ∈ order, IsGreatest {n | g.PathTo n v.id} (g.depth v.id)
  layered : order.Pairwise fun v w => g.depth v.id ≤ g.depth w.id
  /-- Vertices without inputs keep the order in which they were added. -/
  inputs : order.filter (·.isInput) = g.vertices.filter (·.isInput)

/-- The vertices without inputs, in the order in which they were added. -/
theorem filterMap_queue_start (g : JobGraph) :
    (Sorting.start g).queue.filterMap (g.vertices[·]?) =
      g.vertices.filter (·.isInput) := by
  have hall : ∀ x ∈ g.vertices.zipIdx.filter (·.1.inputs.isEmpty),
      g.vertices[x.2]? = some x.1 := fun x hx =>
    List.mem_zipIdx_iff_getElem?.mp (List.mem_of_mem_filter hx)
  have hfst : (g.vertices.zipIdx.filter (·.1.inputs.isEmpty)).map Prod.fst =
      (g.vertices.zipIdx.map Prod.fst).filter (·.isInput) := by
    rw [List.filter_map]
    rfl
  rw [Sorting.start, List.filterMap_map]
  rw [List.zipIdx_map_fst] at hfst
  rw [← hfst, ← List.filterMap_eq_map]
  exact List.filterMap_congr hall

theorem WellFormed.sortedByDepth (hg : g.WellFormed) {order : List JobVertex}
    (h : g.sorted = .ok order) : g.SortedByDepth order := by
  obtain ⟨-, -, horder⟩ := sorted_eq_ok_iff.mp h
  have hgreatest : ∀ pos ∈ g.sorting.taken, ∀ v, g.vertices[pos]? = some v →
      IsGreatest {n | g.PathTo n v.id} (g.depth v.id) := by
    intro pos hpos v hv
    obtain ⟨q, hq⟩ := List.mem_iff_getElem?.mp hpos
    exact hg.isGreatest_depth (q := q) (by rw [takenAt, hq]; simp [idAt, hv])
  refine ⟨sorted_perm h, fun q v hq e he => hg.producer_of_sorted h hq he,
    ?longest, ?layered, ?inputs⟩
  case longest =>
    intro v hv
    rw [horder, List.mem_filterMap] at hv
    obtain ⟨pos, hpos, hv⟩ := hv
    exact hgreatest pos hpos v hv
  case layered =>
    have hlayered := hg.layered_sorting
    rw [Sorting.Layered, line_sorting] at hlayered
    rw [horder, List.pairwise_filterMap]
    refine hlayered.imp_of_mem ?_
    intro p q hp hq hpq v hv w hw
    exact (hpq v.id w.id (by simp [idAt, hv]) (by simp [idAt, hw])).depth_le
      (hgreatest p hp v hv) (hgreatest q hq w hw)
  case inputs =>
    have hinputs := inputsFirst_sorting g
    rw [Sorting.InputsFirst, line_sorting] at hinputs
    rw [horder, ← filterMap_queue_start, ← hinputs, List.filter_filterMap,
      List.filterMap_filter]
    refine List.filterMap_congr fun pos _ => ?_
    cases hv : g.vertices[pos]? <;>
      simp [inputsAt, JobVertex.isInput, hv, Option.filter]

/-! ## Two small graphs -/

/-- The graph with one more edge, if that can be added. -/
def link (g : JobGraph) (dataSet producer consumer : Nat) : JobGraph :=
  (g.connect ⟨⟨dataSet⟩⟩ ⟨⟨producer⟩⟩ ⟨⟨consumer⟩⟩ .pointwise
    .pipelined).toOption.getD g

theorem Built.link (hg : g.Built) {dataSet : Nat} (producer consumer : Nat)
    (fresh : ∀ e ∈ g.edges, e.source ≠ ⟨⟨dataSet⟩⟩) :
    (g.link dataSet producer consumer).Built := by
  unfold JobGraph.link
  cases h : g.connect ⟨⟨dataSet⟩⟩ ⟨⟨producer⟩⟩ ⟨⟨consumer⟩⟩ .pointwise
    .pipelined with
  | error e => exact hg
  | ok g' => exact .connect hg fresh h

/-- Vertices that are added against the direction of their edges. -/
def corners : JobGraph :=
  let start : JobGraph := { name := "corners" }
  (((start.addVertex ⟨⟨4⟩⟩ "sink" 1).addVertex ⟨⟨3⟩⟩ "right" 2).addVertex
    ⟨⟨2⟩⟩ "left" 2).addVertex ⟨⟨1⟩⟩ "source" 1

theorem built_corners : corners.Built :=
  .addVertex "source" 1 (.addVertex "left" 2 (.addVertex "right" 2
    (.addVertex "sink" 1 (.empty "corners") (by decide)) (by decide))
      (by decide)) (by decide)

/-- The sink reads twice from the source, and from both sides. -/
def diamond : JobGraph :=
  (((((corners.link 10 1 4).link 11 1 4).link 12 1 3).link 13 3 2).link
    14 3 4).link 15 2 4

theorem built_diamond : diamond.Built :=
  (((((built_corners.link 1 4 (by decide +kernel)).link 1 4
    (by decide +kernel)).link 1 3 (by decide +kernel)).link 3 2
      (by decide +kernel)).link 3 4 (by decide +kernel)).link 2 4
        (by decide +kernel)

/-- Both sides read from each other, and the sink from one of them. -/
def looped : JobGraph :=
  ((corners.link 10 3 2).link 11 2 3).link 12 3 4

theorem built_looped : looped.Built :=
  ((built_corners.link 3 2 (by decide +kernel)).link 2 3
    (by decide +kernel)).link 3 4 (by decide +kernel)

/-! ## Sorting -/

open scoped Classical in
/-- A graph is sorted exactly if every vertex has subtasks and there is no
cycle. The order is by depth, and a cycle is reported with everything on it
or behind it. -/
theorem sorted_of_built (hbuilt : g.Built) :
    ((∃ order, g.sorted = .ok order) ↔
      (∀ v ∈ g.vertices, v.parallelism ≠ 0) ∧
        ¬ ∃ id, Relation.TransGen g.LeadsTo id id) ∧
    (∀ order, g.sorted = .ok order → g.SortedByDepth order) ∧
    ((∀ v ∈ g.vertices, v.parallelism ≠ 0) →
      (∃ id, Relation.TransGen g.LeadsTo id id) →
        g.sorted = .error (.invalidGraph (.cycle
          ((g.vertices.filter fun v => g.Trapped v.id).map (·.name))))) := by
  have hg := hbuilt.wellFormed
  have hacyclic : g.Acyclic ↔ ¬ ∃ id, Relation.TransGen g.LeadsTo id id :=
    not_exists.symm
  simp only [← Nat.pos_iff_ne_zero]
  refine ⟨?_, fun order h => hg.sortedByDepth h, ?_⟩
  · rw [hg.exists_sorted_iff, hacyclic]
  · intro hpositive hcycle
    exact hg.sorted_eq_cycle hpositive fun h => hacyclic.mp h hcycle

open scoped Classical in
theorem sorted_diamond_and_looped :
    (∃ order, diamond.sorted = .ok order ∧ diamond.SortedByDepth order ∧
      order.map (·.name) = ["source", "right", "left", "sink"]) ∧
    ((∃ id, Relation.TransGen looped.LeadsTo id id) ∧
      (looped.vertices.filter fun v => looped.Trapped v.id).map (·.name) =
        ["sink", "right", "left"]) := by
  have hdiamond := sorted_of_built built_diamond
  have hlooped := sorted_of_built built_looped
  constructor
  · have hnames : diamond.sorted.toOption.map (·.map (·.name)) =
        some ["source", "right", "left", "sink"] := by decide +kernel
    cases horder : diamond.sorted with
    | error e =>
      rw [horder] at hnames
      cases hnames
    | ok order =>
      rw [horder] at hnames
      exact ⟨order, rfl, hdiamond.2.1 order horder, Option.some.inj hnames⟩
  · have hleads : looped.LeadsTo ⟨⟨3⟩⟩ ⟨⟨2⟩⟩ ∧ looped.LeadsTo ⟨⟨2⟩⟩ ⟨⟨3⟩⟩ := by
      unfold LeadsTo
      decide +kernel
    have hcycle : ∃ id, Relation.TransGen looped.LeadsTo id id :=
      ⟨⟨⟨3⟩⟩, .tail (.single hleads.1) hleads.2⟩
    have herror := hlooped.2.2 (by decide +kernel) hcycle
    have hnames : (match looped.sorted with
        | .error (.invalidGraph (.cycle names)) => names
        | _ => []) = ["sink", "right", "left"] := by decide +kernel
    rw [herror] at hnames
    exact ⟨hcycle, hnames⟩

end JobGraph

end ControlPlane
