import Mathlib
import ControlPlane.Proofs.Topology.Cohesive
import ControlPlane.Proofs.Topology.Views

/-!
# Rescaling refines a fresh build

A topology that has grown could be built again from its job graph, with the
same wiring. Its own regions are those of the fresh build, or unions of them:
they keep together what belongs together, and may hold more where new
subtasks have joined the region of a sibling.
-/

namespace ControlPlane

namespace Topology

/-- The ids of the tasks of a region. -/
def regionIds (t : Topology) (region : PipelinedRegion) : List TaskId :=
  (t.tasksOf region.tasks).map (·.id)

theorem mem_regionIds {t : Topology} {region : PipelinedRegion}
    {id : TaskId} :
    id ∈ t.regionIds region ↔ ∃ i ∈ region.tasks, t.taskIdAt i = some id := by
  simp only [regionIds, tasksOf, List.mem_map, List.mem_filterMap]
  constructor
  · rintro ⟨task, ⟨i, hi, htask⟩, rfl⟩
    exact ⟨i, hi, taskIdAt_of_getElem? htask⟩
  · rintro ⟨i, hi, hid⟩
    obtain ⟨task, htask, rfl⟩ := Option.map_eq_some_iff.mp hid
    exact ⟨task, ⟨i, hi, htask⟩, rfl⟩

section Rebuild

variable {t s : Topology} (h : t.Whole) (hregioned : t.Regioned)
  (hcohesive : t.Cohesive) (hs : s.Whole) (hgraph : s.graph = t.graph)

include h hs hgraph

/-- Topologies of one job graph have the same tasks. -/
theorem Whole.exists_same_task {i : Nat} {id : TaskId}
    (hi : s.taskIdAt i = some id) : ∃ j, t.taskIdAt j = some id := by
  rw [h.exists_taskIdAt_iff, ← hgraph, ← hs.exists_taskIdAt_iff]
  exact ⟨i, hi⟩

include hregioned hcohesive

/-- A new region lies in one of the regions that keep tasks together. -/
theorem Whole.exists_region_superset {region : PipelinedRegion}
    (hregion : region ∈ s.computeRegions.regions) :
    ∃ region' ∈ t.regions,
      s.computeRegions.regionIds region ⊆ t.regionIds region' := by
  obtain ⟨r, hr⟩ := Array.mem_iff_getElem?.mp hregion
  obtain ⟨l, hl, rfl⟩ := getElem?_regions_computeRegions.mp hr
  have hclasses := hs.classes_regionMembers
  have hmem := List.mem_of_getElem? hl
  -- The region sought is that of any task of the new region.
  obtain ⟨i, hi⟩ := List.exists_mem_of_ne_nil l (hclasses.nonempty l hmem)
  obtain ⟨id, hid⟩ := exists_taskIdAt ((hclasses.covers i).mp ⟨l, hmem, hi⟩)
  obtain ⟨j, hj⟩ := h.exists_same_task hs hgraph hid
  obtain ⟨q, hq⟩ := hregioned.exists_regionOf (lt_of_taskIdAt hj)
  have hget := Array.getElem?_eq_getElem (hregioned.lt j q hq)
  refine ⟨_, Array.mem_of_getElem? hget, fun id' hid' => ?_⟩
  obtain ⟨i', hi', hid'⟩ := mem_regionIds.mp hid'
  rw [sameLinks_computeRegions.taskIdAt] at hid'
  obtain ⟨j', hj'⟩ := h.exists_same_task hs hgraph hid'
  have htogether := ((hclasses.related l hmem i hi i').mp hi').1
  rw [hs.together_iff hid hid', hgraph, ← h.together_iff hj hj'] at htogether
  have hsame := hcohesive j j' (lt_of_taskIdAt hj) (lt_of_taskIdAt hj')
    htogether
  exact mem_regionIds.mpr
    ⟨j', (hregioned.mem_tasks q _ hget j').mpr (hsame.symm.trans hq), hj'⟩

end Rebuild

/-- The job graph of a reachable topology can be built again. The fresh
topology has the same wiring, and its regions lie within the regions there
are. -/
theorem refines_rebuilt {t : Topology} (h : t.Reachable) :
    ∃ u, ofJobGraph t.graph = .ok u ∧ SameWiring t u ∧
      ∀ region ∈ u.regions, ∃ region' ∈ t.regions,
        u.regionIds region ⊆ t.regionIds region' := by
  have hwhole := h.whole
  obtain ⟨u, hok⟩ := (exists_ofJobGraph_iff hwhole.graph).mpr h.runnable
  obtain ⟨s, hs, hgraph, rfl⟩ := exists_of_ofJobGraph hwhole.graph hok
  refine ⟨_, hok, hwhole.sameWiring hs.computeRegions ?_, fun region hregion =>
    hwhole.exists_region_superset h.regioned h.cohesive hs hgraph hregion⟩
  rw [graph_computeRegions, hgraph]

/-- The small job after both of its operators have grown. -/
theorem refines_rebuilt_grown_sample :
    let t := Call.run (Call.run sample (.extendRegion ⟨sampleSink, 0⟩ 1))
      (.extendRegion ⟨sampleSource, 1⟩ 2)
    t.tasks.size = 7 ∧ ∃ u, ofJobGraph t.graph = .ok u ∧ SameWiring t u ∧
      ∀ region ∈ u.regions, ∃ region' ∈ t.regions,
        u.regionIds region ⊆ t.regionIds region' :=
  ⟨by decide +kernel, refines_rebuilt (.call (.call reachable_sample _) _)⟩

end Topology

end ControlPlane
