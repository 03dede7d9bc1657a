import Mathlib
import ControlPlane.Proofs.Topology.Regioned

/-!
# The regions of a new topology

Right after a topology is built, its regions are exactly the specified
classes of tasks, in the order of their smallest tasks.
-/

namespace ControlPlane

namespace Topology

/-- The regions are the specified ones: tasks share one iff they belong
together, and the regions are numbered by their smallest task. -/
structure Partitioned (t : Topology) : Prop where
  shared : ∀ i j : Nat, i < t.tasks.size → j < t.tasks.size →
    (t.regionOf[i]? = t.regionOf[j]? ↔ t.Together i j)
  unique : ∀ i < t.tasks.size, ∃! r : Nat, ∃ region,
    t.regions[r]? = some region ∧ i ∈ region.tasks
  index : ∀ (r : Nat) region, t.regions[r]? = some region → region.index = r
  mem_tasks : ∀ (r : Nat) region, t.regions[r]? = some region →
    ∀ i : Nat, i ∈ region.tasks ↔ t.regionOf[i]? = some r
  ascending : ∀ (r : Nat) region, t.regions[r]? = some region →
    region.tasks.Pairwise (· < ·)
  numbered : ∀ (r s : Nat) region region', t.regions[r]? = some region →
    t.regions[s]? = some region' → r < s →
    ∃ i j, region.tasks.min? = some i ∧ region'.tasks.min? = some j ∧ i < j

theorem SameLinks.taskArc {t t' : Topology} (h : SameLinks t t') :
    t'.TaskArc = t.TaskArc := by
  funext i j
  simp only [TaskArc, Feeds, h.consumedBy, h.partitionsIn, h.outputAt]

theorem together_computeRegions {t : Topology} {i j : Nat} :
    t.computeRegions.Together i j ↔ t.Together i j := by
  rw [Together, Together, sameLinks_computeRegions.taskArc,
    sameLinks_computeRegions.taskIdAt, graph_computeRegions]

section New

variable {t : Topology}

/-- Regions come in the order of their smallest tasks. -/
theorem Whole.min?_lt_of_lt (h : t.Whole) {r s : Nat} {l m : List Nat}
    (hl : t.regionMembers[r]? = some l) (hm : t.regionMembers[s]? = some m)
    (hrs : r < s) : ∃ i j, l.min? = some i ∧ m.min? = some j ∧ i < j := by
  have hordered := h.classes_regionMembers.startsBefore
    (fun _ => pairwise_lt_of_mem_ascending (f := id)) (pairwise_ascending _)
  obtain ⟨hr, rfl⟩ := List.getElem?_eq_some_iff.mp hl
  obtain ⟨hs, rfl⟩ := List.getElem?_eq_some_iff.mp hm
  exact List.pairwise_iff_getElem.mp hordered r s hr hs hrs

/-- Two tasks have the same region iff they belong together. -/
theorem Whole.regionOf_eq_iff (h : t.Whole) {i j : Nat}
    (hi : i < t.tasks.size) (hj : j < t.tasks.size) :
    t.computeRegions.regionOf[i]? = t.computeRegions.regionOf[j]? ↔
      t.Together i j := by
  have hclasses := h.classes_regionMembers
  have hregion : ∀ {k : Nat}, k < t.tasks.size →
      ∃ r l, t.regionMembers[r]? = some l ∧ k ∈ l ∧
        t.computeRegions.regionOf[k]? = some r := by
    intro k hk
    obtain ⟨l, hl, hkl⟩ := (hclasses.covers k).mpr hk
    obtain ⟨r, hr⟩ := List.mem_iff_getElem?.mp hl
    exact ⟨r, l, hr, hkl, h.regionOf_eq_some_iff.mpr ⟨l, hr, hkl⟩⟩
  obtain ⟨r, l, hl, hil, hr⟩ := hregion hi
  obtain ⟨s, m, hm, hjm, hs⟩ := hregion hj
  have hrelated := hclasses.related l (List.mem_of_getElem? hl) i hil j
  rw [hr, hs, Option.some.injEq]
  constructor
  · intro hrs
    subst hrs
    rw [hl, Option.some.injEq] at hm
    exact (hrelated.mp (hm ▸ hjm)).1
  · intro htogether
    have hjl := hrelated.mpr ⟨htogether, htogether.symm⟩
    have hjr := h.regionOf_eq_some_iff.mpr ⟨l, hl, hjl⟩
    rw [hs, Option.some.injEq] at hjr
    exact hjr.symm

theorem Regioned.unique (h : t.Regioned) {i : Nat} (hi : i < t.tasks.size) :
    ∃! r : Nat, ∃ region, t.regions[r]? = some region ∧ i ∈ region.tasks := by
  obtain ⟨r, hr⟩ := h.exists_regionOf hi
  have hregion := Array.getElem?_eq_getElem (h.lt i r hr)
  refine ⟨_, ⟨_, hregion, (h.mem_tasks _ _ hregion i).mpr hr⟩, ?_⟩
  rintro s ⟨region, hs, his⟩
  have hs' := (h.mem_tasks s region hs i).mp his
  rw [hr, Option.some.injEq] at hs'
  exact hs'.symm

theorem Whole.partitioned_computeRegions (h : t.Whole) :
    t.computeRegions.Partitioned := by
  have hregioned := h.regioned_computeRegions
  refine ⟨?_, fun i hi => hregioned.unique hi, hregioned.index,
    hregioned.mem_tasks, hregioned.tasks_ascending, ?_⟩
  · intro i j hi hj
    rw [tasks_computeRegions] at hi hj
    rw [together_computeRegions]
    exact h.regionOf_eq_iff hi hj
  · intro r s region region' hr hs hrs
    obtain ⟨l, hl, rfl⟩ := getElem?_regions_computeRegions.mp hr
    obtain ⟨m, hm, rfl⟩ := getElem?_regions_computeRegions.mp hs
    exact h.min?_lt_of_lt hl hm hrs

end New

/-- Pipelined regions are exactly the specified ones. -/
theorem partitioned_of_ofJobGraph {g : JobGraph} (hg : g.Built)
    {t : Topology} (h : ofJobGraph g = .ok t) :
    t.graph = g ∧ t.Partitioned := by
  obtain ⟨t0, hwhole, hgraph, rfl⟩ := exists_of_ofJobGraph hg.wellFormed h
  exact ⟨graph_computeRegions.trans hgraph, hwhole.partitioned_computeRegions⟩

/-- The four tasks of the small job have regions of their own. -/
theorem partitioned_sample :
    sample.graph = sampleGraph ∧ sample.Partitioned ∧
      sample.regionOf = #[0, 1, 2, 3] := by
  obtain ⟨hgraph, hpartitioned⟩ :=
    partitioned_of_ofJobGraph built_sampleGraph ofJobGraph_sampleGraph
  exact ⟨hgraph, hpartitioned, by decide +kernel⟩

end Topology

end ControlPlane
