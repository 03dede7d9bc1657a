import Mathlib
import ControlPlane.Proofs.Region.Partition
import ControlPlane.Proofs.Sequence

/-!
# The order of regions and of their members

Members join their classes in ascending order, and a class is opened by its
smallest member. So the classes are in order already when nothing has to be
merged, and merged classes are put into order at the end. Either way the
regions consist of the members that reach each other, every region is
ascending, and the regions come in the order of their smallest members.
-/

namespace ControlPlane

namespace Region

/-! ## Classes under construction -/

/-- Members have come in ascending order, and have opened the classes one
after the other. -/
structure Grouping.InOrder (g : Grouping) : Prop where
  latest_first : ∀ (c : Nat) l, g.classes[c]? = some l → l.Pairwise (· > ·)
  /-- Every class before that of a member has a smaller member. -/
  opened : ∀ i c : Nat, g.classOf[i]? = some c →
    ∀ d < c, ∃ j < i, g.classOf[j]? = some d

namespace Grouping

variable {sets : DisjointSet} {k : Nat} {g : Grouping}

theorem inOrder_start (sets : DisjointSet) : InOrder { sets } where
  latest_first := by simp
  opened := by simp

/-- Every class has a member among the first ones. -/
theorem Sound.exists_member (h : Sound sets k g) {d : Nat}
    (hd : d < g.classes.size) : ∃ j < k, g.classOf[j]? = some d := by
  have hget : g.classes[d]? = some g.classes[d] := by simp [hd]
  obtain ⟨j, hj⟩ := List.exists_mem_of_ne_nil _ (h.nonempty d _ hget)
  have hclass := (h.mem d _ hget j).mp hj
  exact ⟨j, h.lt hclass, hclass⟩

/-- The next member may join any of the classes, or open the next one. -/
theorem InOrder.opened_push (h : InOrder g) (hs : Sound sets k g) {c : Nat}
    (hc : c ≤ g.classes.size) (i c' : Nat)
    (hi : (g.classOf.push c)[i]? = some c') :
    ∀ d < c', ∃ j < i, (g.classOf.push c)[j]? = some d := by
  intro d hd
  rw [hs.getElem?_classOf_push] at hi
  have hsmaller : ∃ j < i, g.classOf[j]? = some d := by
    split at hi
    · rename_i hik
      cases hi
      rw [hik]
      exact hs.exists_member (by omega)
    · exact h.opened i c' hi d hd
  obtain ⟨j, hj, hclass⟩ := hsmaller
  refine ⟨j, hj, ?_⟩
  rw [hs.getElem?_classOf_push, if_neg (Nat.ne_of_lt (hs.lt hclass)), hclass]

theorem InOrder.add (h : InOrder g) (hs : Sound sets k g) :
    InOrder (g.add k) := by
  have hbelow : ∀ (c : Nat) l, g.classes[c]? = some l → ∀ i ∈ l, i < k :=
    fun c l hl i hi => hs.lt ((hs.mem c l hl i).mp hi)
  unfold Grouping.add
  dsimp only
  split
  · rename_i c hc
    constructor
    · intro c' l hl
      rw [Array.getElem?_modify] at hl
      split at hl
      · obtain ⟨l', hl', rfl⟩ := Option.map_eq_some_iff.mp hl
        exact List.pairwise_cons.mpr
          ⟨hbelow c' l' hl', h.latest_first c' l' hl'⟩
      · exact h.latest_first c' l hl
    · exact h.opened_push hs (hs.byRoot_lt _ c hc).le
  · constructor
    · intro c l hl
      rw [Array.getElem?_push] at hl
      split at hl
      · cases hl
        exact List.pairwise_singleton _ k
      · exact h.latest_first c l hl
    · exact h.opened_push hs (Nat.le_refl _)

theorem inOrder_grouping (hsets : sets.Forest) (n : Nat) :
    InOrder (grouping n sets) := by
  induction n with
  | zero => exact inOrder_start sets
  | succ n ih =>
    have hstep : grouping (n + 1) sets = (grouping n sets).add n := by
      rw [grouping, List.range_succ, List.foldl_append]
      rfl
    rw [hstep]
    exact ih.add (sound_grouping hsets n)

theorem InOrder.members_ascending (h : InOrder g) :
    ∀ l ∈ g.members.toList, l.Pairwise (· < ·) := by
  intro l hl
  obtain ⟨c, hc⟩ := List.mem_iff_getElem?.mp hl
  rw [members, Array.getElem?_toList, Array.getElem?_map] at hc
  obtain ⟨l', hl', rfl⟩ := Option.map_eq_some_iff.mp hc
  exact List.pairwise_reverse.mpr (h.latest_first c l' hl')

/-- The smallest member of a class is above a member of every class before. -/
theorem InOrder.members_startsBefore (h : InOrder g) (hs : Sound sets k g) :
    g.members.toList.Pairwise StartsBefore := by
  have hclass : ∀ (c : Nat) l, g.members.toList[c]? = some l →
      l ≠ [] ∧ ∀ i, i ∈ l ↔ g.classOf[i]? = some c := by
    intro c l hl
    rw [members, Array.getElem?_toList, Array.getElem?_map] at hl
    obtain ⟨l', hl', rfl⟩ := Option.map_eq_some_iff.mp hl
    refine ⟨by simpa using hs.nonempty c l' hl', fun i => ?_⟩
    rw [List.mem_reverse]
    exact hs.mem c l' hl' i
  rw [List.pairwise_iff_getElem]
  intro c d hc hd hcd
  obtain ⟨hlne, hl⟩ := hclass c _ (List.getElem?_eq_getElem hc)
  obtain ⟨hmne, hm⟩ := hclass d _ (List.getElem?_eq_getElem hd)
  obtain ⟨i, hi⟩ :=
    Option.isSome_iff_exists.mp (List.isSome_min?_of_ne_nil hlne)
  obtain ⟨j, hj⟩ :=
    Option.isSome_iff_exists.mp (List.isSome_min?_of_ne_nil hmne)
  obtain ⟨-, hile⟩ := List.min?_eq_some_iff.mp hi
  obtain ⟨hjm, -⟩ := List.min?_eq_some_iff.mp hj
  obtain ⟨i', hlt, hi'⟩ := h.opened j d ((hm j).mp hjm) c hcd
  have hle := hile i' ((hl i').mpr hi')
  exact ⟨i, j, hi, hj, by omega⟩

end Grouping

/-! ## Regions -/

/-- The regions of the members below `n`: the members that reach each other,
ascending, and in the order of their smallest members. -/
structure OrderedRegions (n : Nat) (deps : List Dependency)
    (regions : List (List Nat)) : Prop where
  once : ∀ v < n, ∃! k : Nat, ∃ r, regions[k]? = some r ∧ v ∈ r
  members : ∀ r ∈ regions, r ≠ [] ∧ ∀ v ∈ r, v < n
  shared : ∀ v < n, ∀ w < n, (∃ r ∈ regions, v ∈ r ∧ w ∈ r) ↔
    Leads deps v w ∧ Leads deps w v
  ascending : ∀ r ∈ regions, r.Pairwise (· < ·)
  ordered : regions.Pairwise StartsBefore

theorem Classes.orderedRegions {n : Nat} {deps : List Dependency}
    {regions : List (List Nat)} (h : Classes n (Leads deps) regions)
    (hascending : ∀ r ∈ regions, r.Pairwise (· < ·))
    (hordered : regions.Pairwise StartsBefore) :
    OrderedRegions n deps regions where
  once _ hv := h.existsUnique hv
  members r hr := ⟨h.nonempty r hr, fun v hv => (h.covers v).mp ⟨r, hr, hv⟩⟩
  shared _ hv _ _ := h.exists_shared_iff hv
  ascending := hascending
  ordered := hordered

/-- Regions are in order whether or not classes had to be merged. -/
theorem orderedRegions_partition {n : Nat} {deps : List Dependency}
    (hdeps : InRange n deps) :
    OrderedRegions n deps (partition n deps) := by
  obtain ⟨hforest, -, -⟩ := forest_joinPipelined hdeps
  have hsound := Grouping.sound_grouping hforest n
  have hinOrder := Grouping.inOrder_grouping hforest n
  have hclasses := classes_partition hdeps
  unfold partition at hclasses ⊢
  dsimp only at hclasses ⊢
  split at hclasses
  · rename_i hlen
    rw [if_pos hlen]
    exact hclasses.orderedRegions hinOrder.members_ascending
      (hinOrder.members_startsBefore hsound)
  · rename_i hlen
    rw [if_neg hlen]
    exact hclasses.orderedRegions (fun _ => pairwise_lt_of_mem_ascending)
      (hclasses.startsBefore (fun _ => pairwise_lt_of_mem_ascending)
        (pairwise_ascending _))

/-- Dependencies that close a cycle merge the classes `0, 3` and `1`, and
without the one backwards the classes stay as they are. -/
theorem orderedRegions_merged_and_apart :
    (partition 5 [⟨3, 0, true⟩, ⟨3, 1, false⟩, ⟨1, 0, false⟩, ⟨4, 2, true⟩] =
        [[0, 1, 3], [2, 4]] ∧
      OrderedRegions 5
        [⟨3, 0, true⟩, ⟨3, 1, false⟩, ⟨1, 0, false⟩, ⟨4, 2, true⟩]
        [[0, 1, 3], [2, 4]]) ∧
    (partition 5 [⟨3, 0, true⟩, ⟨3, 1, false⟩, ⟨4, 2, true⟩] =
        [[0, 3], [1], [2, 4]] ∧
      OrderedRegions 5 [⟨3, 0, true⟩, ⟨3, 1, false⟩, ⟨4, 2, true⟩]
        [[0, 3], [1], [2, 4]]) := by
  have hmerged : partition 5
      [⟨3, 0, true⟩, ⟨3, 1, false⟩, ⟨1, 0, false⟩, ⟨4, 2, true⟩] =
        [[0, 1, 3], [2, 4]] := by decide +kernel
  have hapart : partition 5 [⟨3, 0, true⟩, ⟨3, 1, false⟩, ⟨4, 2, true⟩] =
      [[0, 3], [1], [2, 4]] := by decide +kernel
  exact
    ⟨⟨hmerged, hmerged ▸ orderedRegions_partition (by unfold InRange; decide)⟩,
      hapart, hapart ▸ orderedRegions_partition (by unfold InRange; decide)⟩

end Region

end ControlPlane
