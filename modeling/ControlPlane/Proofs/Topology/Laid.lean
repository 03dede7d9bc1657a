import Mathlib
import ControlPlane.Proofs.Topology.Expansion

/-!
# Edges are laid as their patterns say

The groups of an edge are its wires, between the subtasks of its producer and
those of its target as there are at the moment. Sets alone would not do: the
position of a partition in its group and of a reader in its consumer group
is part of what a pattern says.
-/

namespace ControlPlane

namespace Topology

/-- The wire that a group lies on. -/
def wireAt (t : Topology) (g : GroupIndex) : Wire :=
  ⟨t.partitionsIn g, t.tasksReading g⟩

/-- The groups of an edge are its wires between the given subtasks. -/
structure LaidAlong (t : Topology) (e : JobEdge)
    (producers consumers : List TaskIndex) : Prop where
  nodup : (t.dataSetGroups.getD e.source []).Nodup
  wires : ∃ ps, t.Produces e producers ps ∧
    (t.dataSetGroups.getD e.source []).map t.wireAt =
      Wire.ofPattern e.pattern ps consumers

section Keep

variable {t t' : Topology} {e : JobEdge} {producers consumers : List Nat}

theorem Produces.lt {ps : List Nat} (h : t.Produces e producers ps) :
    ∀ p ∈ ps, p < t.partitions.size := by
  intro p hp
  have hmem := List.mem_map_of_mem (f := t.outputAt) hp
  rw [h] at hmem
  obtain ⟨x, -, hx⟩ := List.mem_map.mp hmem
  exact lt_of_outputAt hx.symm

theorem Produces.congr {ps : List Nat} (h : t.Produces e producers ps)
    (houtput : ∀ p < t.partitions.size, t'.outputAt p = t.outputAt p) :
    t'.Produces e producers ps := by
  rw [Produces, ← h]
  exact List.map_congr_left fun p hp => houtput p (h.lt p hp)

/-- An edge stays where it is as long as its own groups do. -/
theorem LaidAlong.congr (h : t.LaidAlong e producers consumers)
    (hgroups : t'.dataSetGroups.getD e.source [] =
      t.dataSetGroups.getD e.source [])
    (houtput : ∀ p < t.partitions.size, t'.outputAt p = t.outputAt p)
    (hwires : ∀ g ∈ t.dataSetGroups.getD e.source [],
      t'.wireAt g = t.wireAt g) : t'.LaidAlong e producers consumers := by
  obtain ⟨ps, hps, hlaid⟩ := h.wires
  refine ⟨hgroups ▸ h.nodup, ps, hps.congr houtput, ?_⟩
  rw [hgroups, ← hlaid]
  exact List.map_congr_left hwires

theorem SameGroups.wireAt (h : SameGroups t t') (g : Nat) :
    t'.wireAt g = t.wireAt g := by
  simp only [Topology.wireAt, Topology.partitionsIn, Topology.tasksReading,
    h.groups, h.consumerGroups]

theorem SameGroups.laid (h : SameGroups t t')
    (hlaid : t.LaidAlong e producers consumers) :
    t'.LaidAlong e producers consumers :=
  hlaid.congr (by rw [h.dataSetGroups]) h.outputAt fun g _ => h.wireAt g

theorem SameLinks.laid (h : SameLinks t t')
    (hlaid : t.LaidAlong e producers consumers) :
    t'.LaidAlong e producers consumers := by
  refine hlaid.congr (by rw [h.dataSetGroups])
    (fun p _ => by rw [h.outputAt]) fun g _ => ?_
  rw [wireAt, wireAt, h.partitionsIn, h.tasksReading]

end Keep

section Connect

variable {t t' : Topology} {done : List JobEdge} {e : JobEdge}
  {producers consumers : List Nat}

theorem wireAt_addGroups (h : t.Grouped) (ws : List Wire) (g : Nat) :
    (t.addGroups e ws).wireAt g =
      if g < t.groups.size then t.wireAt g
      else ⟨(ws[g - t.groups.size]?.map (·.partitions)).getD [],
        (ws[g - t.groups.size]?.map (·.consumers)).getD []⟩ := by
  have hreaders : (t.addGroups e ws).tasksReading g = _ :=
    tasksReading_foldl_addGroup (t := t) (e := e) g
  rw [wireAt, partitionsIn_addGroups, hreaders, h.size]
  split <;> rfl

/-- A new edge is laid. -/
theorem Connected.laid (h : t.Connected done e producers consumers t')
    (hw : t.Wired done) (hnew : ∀ e' ∈ done, e'.source ≠ e.source) :
    t'.LaidAlong e producers consumers := by
  obtain ⟨ps, hps, hfits, rfl⟩ := h.groups
  set ws := Wire.ofPattern e.pattern ps consumers with hws
  have hgroups : (t.addGroups e ws).dataSetGroups.getD e.source [] =
      List.range' t.groups.size ws.length := by
    rw [getD_dataSetGroups_addGroups, if_pos rfl,
      hw.carrying.dataSetGroups_eq_nil hnew, List.nil_append]
  refine ⟨hgroups ▸ List.nodup_range', ps, hps.congr fun p _ =>
    outputAt_addGroups hfits p, ?_⟩
  rw [hgroups]
  apply List.ext_getElem
  · rw [List.length_map, List.length_range']
  · intro j hj hj'
    have hnot : ¬ t.groups.size + 1 * j < t.groups.size := by omega
    have hindex : t.groups.size + 1 * j - t.groups.size = j := by omega
    rw [List.getElem_map, List.getElem_range', wireAt_addGroups hw.grouped,
      if_neg hnot, hindex, List.getElem?_eq_getElem hj']
    rfl

/-- A new edge leaves the others where they are. -/
theorem Connected.keeps_laid
    (h : t.Connected done e producers consumers t') (hw : t.Wired done)
    {e' : JobEdge} (hne : e'.source ≠ e.source) {a b : List Nat}
    (hlaid : t.LaidAlong e' a b) : t'.LaidAlong e' a b := by
  obtain ⟨ps, -, hfits, rfl⟩ := h.groups
  refine hlaid.congr ?_ (fun p _ => outputAt_addGroups hfits p) ?_
  · rw [getD_dataSetGroups_addGroups, if_neg hne.symm]
  · intro g hg
    rw [wireAt_addGroups hw.grouped,
      if_pos (hw.carrying.lt_of_mem_dataSetGroups hg)]

end Connect

end Topology

end ControlPlane
