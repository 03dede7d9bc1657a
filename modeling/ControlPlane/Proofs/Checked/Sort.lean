import Mathlib
import ControlPlane.Proofs.Checked.Basic
import ControlPlane.Proofs.JobGraph.Acyclic

/-!
# The sort looks up nothing that is not there

Sorting needs of a graph only that its index leads to vertices. Which vertex
an id leads to does not matter: edges are counted where the sort finds their
producers, and a vertex is released as often as it has inputs.
-/

namespace ControlPlane

namespace JobGraph

/-- The index leads to vertices, though not necessarily to those that have
the ids. -/
def IndexInRange (g : JobGraph) : Prop :=
  ∀ (id : VertexId) (pos : Nat),
    g.positions[id]? = some pos → pos < g.vertices.length

end JobGraph

namespace Checked

open JobGraph (Sorting)

/-! ## The checked sort -/

/-- Every edge finds its producer. The table of readers has an entry for
every vertex. -/
def findProducers (g : JobGraph) : Except Stop Unit :=
  g.edges.forM fun edge => do
    let pos ← reach g.positions[edge.producer]?
    let _ ← reach g.vertices[pos]?

/-- Records that one input of a vertex is taken. -/
def release (s : Sorting) (pos : Nat) : Except Stop Sorting := do
  let left ← reach s.waiting[pos]?
  if left = 0 then
    throw .belowZero
  return s.release pos

/-- Takes ready vertices until there are none. -/
def takeAll (g : JobGraph) : Nat → Sorting → Except Stop Sorting
  | 0, s => if s.queue.isEmpty then return s else throw .unfinished
  | fuel + 1, s =>
    match s.queue with
    | [] => return s
    | pos :: queue => do
      let _ ← reach g.vertices[pos]?
      let s ← (g.dependents pos).foldlM release
        { s with queue, taken := s.taken ++ [pos] }
      takeAll g fuel s

/-- The names of the vertices that still wait for inputs. -/
def stuckNames (g : JobGraph) (s : Sorting) : Except Stop (List String) :=
  (s.waiting.zipIdx.filter (0 < ·.1)).mapM fun (_, pos) => do
    return (← reach g.vertices[pos]?).name

/-- The vertices in topological order. -/
def sorted (g : JobGraph) : Except Stop (List JobVertex) := do
  returned g.validate
  findProducers g
  let s ← takeAll g g.vertices.length (Sorting.start g)
  if s.taken.length ≠ g.vertices.length then
    throw (.refused (.invalidGraph (.cycle (← stuckNames g s))))
  s.taken.mapM fun pos => reach g.vertices[pos]?

/-! ## Counters and positions -/

section Counters

variable {g : JobGraph}

/-- The producers of a valid graph are indexed. -/
theorem findProducers_eq_ok (hg : g.IndexInRange)
    (hvalid : g.validate = .ok ()) : findProducers g = .ok () := by
  rw [findProducers, forM_eq_ok_iff]
  intro e he
  obtain ⟨v, hv, hev⟩ := JobGraph.mem_edges.mp he
  have hmem := (JobGraph.validate_eq_ok_iff.mp hvalid v hv).2 e hev
  rw [Std.TreeMap.mem_iff_isSome_getElem?, Option.isSome_iff_exists] at hmem
  obtain ⟨pos, hpos⟩ := hmem
  rw [hpos, reach_some, ok_bind, reach_list (hg _ _ hpos)]
  rfl

/-- A vertex whose input is released has been waiting for it. -/
theorem release_eq_ok {s : Sorting} {pos : Nat} {left : List Nat}
    (h : Sorting.Sound g s (pos :: left)) (hpos : pos < g.vertices.length) :
    release s pos = .ok (s.release pos) := by
  have hwaiting := h.waiting pos hpos
  rw [List.count_cons_self] at hwaiting
  simp [release, hwaiting]

theorem releaseAll_eq_ok {left : List Nat} {s : Sorting}
    (h : Sorting.Sound g s left)
    (hleft : ∀ pos ∈ left, pos < g.vertices.length) :
    left.foldlM release s = .ok (left.foldl Sorting.release s) := by
  induction left generalizing s with
  | nil => rfl
  | cons pos left ih =>
    have hpos := hleft pos List.mem_cons_self
    rw [List.foldlM_cons, release_eq_ok h hpos, ok_bind, List.foldl_cons]
    exact ih (h.release hpos) fun p hp => hleft p (List.mem_cons_of_mem _ hp)

/-- With a step for every vertex the queue is empty in the end. -/
theorem takeAll_eq_ok {s : Sorting} (h : Sorting.Sound g s []) {fuel : Nat}
    (hfuel : g.vertices.length ≤ s.taken.length + fuel) :
    takeAll g fuel s = .ok (Sorting.run g fuel s) := by
  induction fuel generalizing s with
  | zero =>
    have hle := h.length_le
    have hqueue : s.queue = [] := List.length_eq_zero_iff.mp (by omega)
    simp [takeAll, Sorting.run, hqueue]
  | succ fuel ih =>
    cases hq : s.queue with
    | nil => simp [takeAll, Sorting.run, hq]
    | cons pos queue =>
      have hpos : pos < g.vertices.length := h.bound pos (by simp [hq])
      have htake := h.take hq
      have hleft : ∀ p ∈ g.dependents pos, p < g.vertices.length :=
        fun p hp => Sorting.dependents_lt hp
      have hnext := ih (htake.releaseAll hleft) (by
        rw [Sorting.taken_releaseAll, List.length_append,
          List.length_singleton]
        omega)
      simp only [takeAll, Sorting.run, hq]
      rw [reach_list hpos, ok_bind, releaseAll_eq_ok htake hleft, ok_bind,
        hnext]

theorem length_release (s : Sorting) (pos : Nat) :
    (s.release pos).waiting.length = s.waiting.length := by
  simp only [Sorting.release]
  split <;> simp

/-- There is one counter for every vertex. -/
theorem length_waiting_run (fuel : Nat) (s : Sorting) :
    (Sorting.run g fuel s).waiting.length = s.waiting.length := by
  have hall : ∀ (left : List Nat) (s : Sorting),
      (left.foldl Sorting.release s).waiting.length = s.waiting.length := by
    intro left
    induction left with
    | nil => intro s; rfl
    | cons pos left ih => intro s; rw [List.foldl_cons, ih, length_release]
  induction fuel generalizing s with
  | zero => rfl
  | succ fuel ih =>
    unfold Sorting.run
    split
    · rfl
    · rw [ih, hall]

/-- The vertices that wait are found behind their counters. -/
theorem stuckNames_eq_ok {s : Sorting}
    (hlength : s.waiting.length = g.vertices.length) :
    stuckNames g s = .ok (((g.vertices.zip s.waiting).filter
      (0 < ·.2)).map (·.1.name)) := by
  have hzip : g.vertices.zip s.waiting = s.waiting.zipIdx.map fun x =>
      (g.vertices[x.2]?.getD default, x.1) := by
    apply List.ext_getElem
    · simp [hlength]
    · intro i h1 h2
      have hi : i < g.vertices.length := by
        rw [List.length_zip] at h1
        omega
      simp [hi]
  have hnames : ((g.vertices.zip s.waiting).filter (0 < ·.2)).map
      (·.1.name) = (s.waiting.zipIdx.filter (0 < ·.1)).map fun x =>
        (g.vertices[x.2]?.getD default).name := by
    rw [hzip, List.filter_map, List.map_map]
    rfl
  rw [hnames, stuckNames]
  apply mapM_eq_ok
  intro x hx
  obtain ⟨hlt, -⟩ := List.getElem?_eq_some_iff.mp
    (List.mem_zipIdx_iff_getElem?.mp (List.mem_filter.mp hx).1)
  rw [hlength] at hlt
  simp [hlt]

/-- Sorting comes to an order or to an error of its own. -/
theorem sorted_eq_returned (hg : g.IndexInRange) :
    sorted g = returned g.sorted := by
  have hsound := JobGraph.sound_sorting g
  have hlength : g.sorting.waiting.length = g.vertices.length := by
    rw [JobGraph.sorting, length_waiting_run]
    simp [Sorting.start]
  refine bind_eq_returned rfl fun _ hvalid => ?_
  rw [findProducers_eq_ok hg hvalid, ok_bind,
    takeAll_eq_ok Sorting.sound_start (Nat.le_add_left _ _), ok_bind,
    ← JobGraph.sorting]
  by_cases htaken : g.sorting.taken.length = g.vertices.length
  · have hbound : ∀ pos ∈ g.sorting.taken, pos < g.vertices.length :=
      fun pos hpos => hsound.bound pos (List.mem_append_left _ hpos)
    have hall : g.sorting.taken.mapM (fun pos => reach g.vertices[pos]?) =
        .ok (g.sorting.taken.filterMap (g.vertices[·]?)) :=
      mapM_eq_ok_filterMap fun pos hpos => by simp [hbound pos hpos]
    simp [htaken, hall]
  · simp [htaken, stuckNames_eq_ok hlength]

end Counters

end Checked

end ControlPlane
