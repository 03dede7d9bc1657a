import Mathlib
import ControlPlane.Proofs.Topology.Reachable

/-!
# Operators in topological order

The operators of a topology are listed as the vertices of its job graph are
sorted. The order depends on the edges only, so it stays the same when an
operator grows.
-/

namespace ControlPlane

namespace JobGraph

/-- A graph with the same vertices and edges, but for what the sort does not
look at. -/
structure SameEdges (g g' : JobGraph) : Prop where
  positions : g'.positions = g.positions
  vertices : g'.vertices.map (fun v => (v.id, v.inputs)) =
    g.vertices.map (fun v => (v.id, v.inputs))

namespace SameEdges

variable {g g' : JobGraph} (h : g.SameEdges g')

include h

theorem map_inputs {β : Type*} (f : List JobEdge → β) :
    g'.vertices.map (fun v => f v.inputs) =
      g.vertices.map (fun v => f v.inputs) := by
  simpa [Function.comp_def] using congrArg (List.map fun x => f x.2) h.vertices

theorem zipIdx_inputs : g'.vertices.zipIdx.map (Prod.map (·.inputs) id) =
    g.vertices.zipIdx.map (Prod.map (·.inputs) id) := by
  rw [← List.zipIdx_map, ← List.zipIdx_map, h.map_inputs fun inputs => inputs]

theorem dependents : g'.dependents = g.dependents := by
  funext pos
  have hlist := congrArg (List.flatMap fun x : List JobEdge × Nat =>
    x.1.filterMap fun edge =>
      if g.positions[edge.producer]? = some pos then some x.2 else none)
    h.zipIdx_inputs
  simp only [List.flatMap_map, Prod.map_fst, Prod.map_snd, id] at hlist
  simpa only [JobGraph.dependents, h.positions] using hlist

theorem start : Sorting.start g' = Sorting.start g := by
  have hqueue := congrArg (fun l : List (List JobEdge × Nat) =>
    (l.filter (·.1.isEmpty)).map (·.2)) h.zipIdx_inputs
  simp only [List.filter_map, List.map_map] at hqueue
  rw [Sorting.start, Sorting.start, h.map_inputs List.length]
  exact congrArg (Sorting.mk _ · []) hqueue

theorem run (fuel : Nat) (s : Sorting) :
    Sorting.run g' fuel s = Sorting.run g fuel s := by
  induction fuel generalizing s with
  | zero => rfl
  | succ fuel ih => simp only [Sorting.run, h.dependents, ih]

theorem length_vertices : g'.vertices.length = g.vertices.length := by
  simpa using congrArg List.length h.vertices

theorem sorting : g'.sorting = g.sorting := by
  rw [JobGraph.sorting, JobGraph.sorting, h.start, h.length_vertices, h.run]

theorem map_id_getElem? (pos : Nat) : (g'.vertices[pos]?).map (·.id) =
    (g.vertices[pos]?).map (·.id) := by
  have hget := congrArg (fun l => l[pos]?.map Prod.fst) h.vertices
  simpa [Function.comp_def] using hget

/-- Both graphs have one order. -/
theorem exists_sorted {order : List JobVertex} (hsorted : g.sorted = .ok order)
    (hpositive : ∀ v ∈ g'.vertices, 0 < v.parallelism) :
    ∃ order', g'.sorted = .ok order' ∧
      order'.map (·.id) = order.map (·.id) := by
  obtain ⟨hvalid, hlength, rfl⟩ := sorted_eq_ok_iff.mp hsorted
  refine ⟨_, sorted_eq_ok_iff.mpr ⟨?_, ?_, rfl⟩, ?_⟩
  · rw [validate_eq_ok_iff] at hvalid ⊢
    refine fun v' hv' => ⟨hpositive v' hv', fun e he => ?_⟩
    have hmem := List.mem_map_of_mem (f := fun v => (v.id, v.inputs)) hv'
    rw [h.vertices] at hmem
    obtain ⟨v, hv, heq⟩ := List.mem_map.mp hmem
    rw [h.positions]
    have hinputs : v.inputs = v'.inputs := congrArg Prod.snd heq
    exact (hvalid v hv).2 e (hinputs ▸ he)
  · rw [h.sorting, hlength, h.length_vertices]
  · rw [h.sorting, List.map_filterMap, List.map_filterMap]
    exact List.filterMap_congr fun pos _ => h.map_id_getElem? pos

end SameEdges

end JobGraph

namespace Topology

/-- The operators are those of the vertices in topological order. -/
def InOrder (t : Topology) : Prop :=
  ∃ order, t.graph.sorted = .ok order ∧
    t.operators.map (·.id) = order.map (·.id)

theorem inOrder_of_ofJobGraph {g : JobGraph} (hg : g.WellFormed)
    {t : Topology} (hok : ofJobGraph g = .ok t) : t.InOrder := by
  obtain ⟨order, t0, hsorted, hfold, -, rfl⟩ := ofJobGraph_eq_ok_iff.mp hok
  have hexpanded : Expanding g (order.map (·.id)) t0 :=
    foldlM_ok_induction (P := Expanding g)
      (fun _ _ _ horder _ _ h hstep => h.snoc hg hsorted horder hstep)
      (expanding_start hg hsorted) hfold
  refine ⟨order, ?_, ?_⟩
  · rw [graph_computeRegions, hexpanded.graph]
    exact hsorted
  · rw [operators_computeRegions, hexpanded.ids]

theorem Extended.sameEdges {t t' : Topology} {o : Operator} {sibling n : Nat}
    (hext : Extended t o sibling n t') : t.graph.SameEdges t'.graph where
  positions := hext.positions
  vertices := by
    rw [hext.vertices, List.map_map]
    apply List.map_congr_left
    intro v _
    rw [Function.comp_apply]
    split <;> rfl

theorem Extended.inOrder {t t' : Topology} {o : Operator} {sibling n : Nat}
    (hext : Extended t o sibling n t') (h : t.InOrder) : t'.InOrder := by
  obtain ⟨order, hsorted, hids⟩ := h
  obtain ⟨order', hsorted', hids'⟩ :=
    hext.sameEdges.exists_sorted hsorted hext.whole.parallelism
  refine ⟨order', hsorted', ?_⟩
  rw [hids', ← hids, hext.operators, List.map_map]
  apply List.map_congr_left
  intro x _
  exact id_extendIf x o.id t.tasks.size n

/-- The operators of reachable topologies are in topological order. -/
theorem Reachable.inOrder {t : Topology} (h : t.Reachable) : t.InOrder := by
  induction h with
  | built hg h => exact inOrder_of_ofJobGraph hg.wellFormed h
  | @call t h c ih =>
    rcases h.whole.call_cases c with
      heq | ⟨i, a, -, ha⟩ | ⟨o, i, n, -, -, hext⟩
    · rw [heq]
      exact ih
    · rw [InOrder, ha.staff.graph, ha.staff.operators]
      exact ih
    · exact hext.inOrder ih

end Topology

end ControlPlane
