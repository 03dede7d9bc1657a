import Mathlib
import ControlPlane.Proofs.Topology.Reachable
import ControlPlane.Proofs.Topology.Regions

/-!
# Every task has one region

The regions list their tasks, and a table holds the region of every task.
Both say the same of a new topology, where the regions are the specified
classes of tasks, and no call lets them part.
-/

namespace ControlPlane

/-! ## A table of classes -/

theorem size_foldl_setIfInBounds (tasks : List Nat) (index : Nat)
    (a : Array Nat) :
    (tasks.foldl (·.setIfInBounds · index) a).size = a.size := by
  induction tasks generalizing a with
  | nil => rfl
  | cons i tasks ih =>
    rw [List.foldl_cons, ih, Array.size_setIfInBounds]

theorem getElem?_foldl_setIfInBounds (tasks : List Nat) (index : Nat)
    {a : Array Nat} {i : Nat} (hi : i < a.size) :
    (tasks.foldl (·.setIfInBounds · index) a)[i]? =
      if i ∈ tasks then some index else a[i]? := by
  induction tasks generalizing a with
  | nil => simp
  | cons j tasks ih =>
    rw [List.foldl_cons, ih (by rwa [Array.size_setIfInBounds]),
      Array.getElem?_setIfInBounds]
    by_cases hij : i = j
    · subst hij
      simp [hi]
    · simp [hij, Ne.symm hij]

/-- The table with the class of every member, where classes are numbered
from some number on. -/
def classTable (members : List (List Nat)) (first : Nat) (a : Array Nat) :
    Array Nat :=
  (members.zipIdx first).foldl (fun table (tasks, index) =>
    tasks.foldl (·.setIfInBounds · index) table) a

theorem classTable_cons (tasks : List Nat) (members : List (List Nat))
    (first : Nat) (a : Array Nat) :
    classTable (tasks :: members) first a =
      classTable members (first + 1)
        (tasks.foldl (·.setIfInBounds · first) a) := rfl

theorem size_classTable (members : List (List Nat)) (first : Nat)
    (a : Array Nat) : (classTable members first a).size = a.size := by
  induction members generalizing first a with
  | nil => rfl
  | cons tasks members ih =>
    rw [classTable_cons, ih, size_foldl_setIfInBounds]

theorem getElem?_classTable_of_not_mem {members : List (List Nat)}
    {first : Nat} {a : Array Nat} {i : Nat} (hi : i < a.size)
    (hnot : ∀ l ∈ members, i ∉ l) :
    (classTable members first a)[i]? = a[i]? := by
  induction members generalizing first a with
  | nil => rfl
  | cons tasks members ih =>
    obtain ⟨htasks, hmembers⟩ := List.forall_mem_cons.mp hnot
    rw [classTable_cons, ih (by rwa [size_foldl_setIfInBounds]) hmembers,
      getElem?_foldl_setIfInBounds _ _ hi, if_neg htasks]

/-- A member of one of several disjoint classes gets the number of that
class. -/
theorem getElem?_classTable {members : List (List Nat)} {first : Nat}
    {a : Array Nat} {i r : Nat} {l : List Nat} (hi : i < a.size)
    (hdisjoint : members.Pairwise List.Disjoint)
    (hl : members[r]? = some l) (hil : i ∈ l) :
    (classTable members first a)[i]? = some (first + r) := by
  induction members generalizing first a r with
  | nil => simp at hl
  | cons tasks members ih =>
    obtain ⟨htasks, hmembers⟩ := List.pairwise_cons.mp hdisjoint
    rw [classTable_cons]
    have hi' : i < (tasks.foldl (·.setIfInBounds · first) a).size := by
      rwa [size_foldl_setIfInBounds]
    cases r with
    | zero =>
      rw [List.getElem?_cons_zero, Option.some.injEq] at hl
      subst hl
      rw [getElem?_classTable_of_not_mem hi' fun l hl hil' =>
        htasks l hl hil hil', getElem?_foldl_setIfInBounds _ _ hi,
        if_pos hil, Nat.add_zero]
    | succ r =>
      rw [List.getElem?_cons_succ] at hl
      rw [ih hi' hmembers hl]
      congr 1
      omega

namespace Topology

open Region

/-! ## Regions and the regions of tasks -/

/-- A group of data that is only read once it is complete. -/
def IsBlocking (t : Topology) (g : GroupIndex) : Prop :=
  (t.exchangeAt g).map (·.kind) = some .blocking

/-- A task of a region consumes a group. -/
def Reads (t : Topology) (r : RegionIndex) (g : GroupIndex) : Prop :=
  ∃ i : Nat, t.regionOf[i]? = some r ∧ g ∈ t.consumedBy i

/-- Every task has one region, and the regions list their tasks and the
blocking groups that these consume. -/
structure Regioned (t : Topology) : Prop where
  size : t.regionOf.size = t.tasks.size
  lt : ∀ i r : Nat, t.regionOf[i]? = some r → r < t.regions.size
  index : ∀ (r : Nat) region, t.regions[r]? = some region → region.index = r
  mem_tasks : ∀ (r : Nat) region, t.regions[r]? = some region →
    ∀ i : Nat, i ∈ region.tasks ↔ t.regionOf[i]? = some r
  tasks_ascending : ∀ (r : Nat) region, t.regions[r]? = some region →
    region.tasks.Pairwise (· < ·)
  mem_blockingGroups : ∀ (r : Nat) region, t.regions[r]? = some region →
    ∀ g : Nat, g ∈ region.blockingGroups ↔ t.IsBlocking g ∧ t.Reads r g
  blockingGroups_ascending : ∀ (r : Nat) region,
    t.regions[r]? = some region → region.blockingGroups.Pairwise (· < ·)

theorem Regioned.exists_regionOf {t : Topology} (h : t.Regioned) {i : Nat}
    (hi : i < t.tasks.size) : ∃ r, t.regionOf[i]? = some r :=
  ⟨_, Array.getElem?_eq_getElem (h.size.symm ▸ hi)⟩

section Compute

variable {t : Topology}

theorem isBlocking_iff {g : Nat} :
    (t.groups[g]?.map (·.kind.isBlocking)).getD false = true ↔
      t.IsBlocking g := by
  cases h : t.groups[g]? <;>
    simp [IsBlocking, exchangeAt, h, ResultKind.isBlocking]

theorem mem_blockingGroupsOf {tasks : List Nat} {g : Nat} :
    g ∈ t.blockingGroupsOf tasks ↔
      t.IsBlocking g ∧ ∃ i ∈ tasks, g ∈ t.consumedBy i := by
  simp only [blockingGroupsOf, mem_ascending, List.mem_flatMap, tasksOf,
    List.mem_filterMap, List.mem_filter, isBlocking_iff]
  constructor
  · rintro ⟨task, ⟨i, hi, htask⟩, hg, hblocking⟩
    exact ⟨hblocking, i, hi, by simpa [consumedBy, htask] using hg⟩
  · rintro ⟨hblocking, i, hi, hg⟩
    have hlt := lt_of_mem_consumedBy hg
    have htask := Array.getElem?_eq_getElem hlt
    exact ⟨_, ⟨i, hi, htask⟩, by simpa [consumedBy, htask] using hg,
      hblocking⟩

theorem regionOf_computeRegions : t.computeRegions.regionOf =
    classTable t.regionMembers 0 (Array.replicate t.tasks.size 0) := by
  simp only [computeRegions, classTable]

theorem getElem?_regions_computeRegions {r : Nat}
    {region : PipelinedRegion} :
    t.computeRegions.regions[r]? = some region ↔
      ∃ l, t.regionMembers[r]? = some l ∧
        region = ⟨r, l, t.blockingGroupsOf l⟩ := by
  simp only [computeRegions, List.getElem?_toArray, List.getElem?_map,
    List.getElem?_zipIdx, Option.map_map, Option.map_eq_some_iff]
  simp only [Function.comp, Nat.zero_add]
  constructor
  · rintro ⟨l, hl, rfl⟩
    exact ⟨l, hl, rfl⟩
  · rintro ⟨l, hl, rfl⟩
    exact ⟨l, hl, rfl⟩

-- It suffices that every task is listed once, whatever the regions are.
section Listed

variable (h : t.regionMembers.flatten.Perm (List.range t.tasks.size))

include h

/-- The number of a region and the region that a task is put into. -/
theorem regionOf_eq_some_iff {i r : Nat} :
    t.computeRegions.regionOf[i]? = some r ↔
      ∃ l, t.regionMembers[r]? = some l ∧ i ∈ l := by
  have hdisjoint := (List.nodup_flatten.mp
    (h.nodup_iff.mpr List.nodup_range)).2
  have hcovers : (∃ l ∈ t.regionMembers, i ∈ l) ↔ i < t.tasks.size := by
    rw [← List.mem_flatten, h.mem_iff, List.mem_range]
  have hnumber : ∀ {s : Nat} {l : List Nat}, t.regionMembers[s]? = some l →
      i ∈ l → t.computeRegions.regionOf[i]? = some s := by
    intro s l hl hil
    have hi := hcovers.mp ⟨l, List.mem_iff_getElem?.mpr ⟨s, hl⟩, hil⟩
    rw [regionOf_computeRegions,
      getElem?_classTable (by rwa [Array.size_replicate]) hdisjoint hl hil,
      Nat.zero_add]
  constructor
  · intro hr
    have hi := (Array.getElem?_eq_some_iff.mp hr).1
    rw [regionOf_computeRegions, size_classTable, Array.size_replicate] at hi
    obtain ⟨l, hl, hil⟩ := hcovers.mpr hi
    obtain ⟨s, hs⟩ := List.mem_iff_getElem?.mp hl
    rw [hnumber hs hil, Option.some.injEq] at hr
    exact ⟨l, hr ▸ hs, hil⟩
  · rintro ⟨l, hl, hil⟩
    exact hnumber hl hil

theorem regioned_computeRegions : t.computeRegions.Regioned := by
  have hmem : ∀ (r : Nat) (l : List Nat), t.regionMembers[r]? = some l →
      ∀ i : Nat, i ∈ l ↔ t.computeRegions.regionOf[i]? = some r := by
    intro r l hl i
    rw [regionOf_eq_some_iff h]
    refine ⟨fun hi => ⟨l, hl, hi⟩, fun ⟨l', hl', hi⟩ => ?_⟩
    rw [hl, Option.some.injEq] at hl'
    exact hl' ▸ hi
  exact
    { size := by
        rw [regionOf_computeRegions, size_classTable, Array.size_replicate,
          tasks_computeRegions]
      lt := by
        intro i r hr
        obtain ⟨l, hl, -⟩ := (regionOf_eq_some_iff h).mp hr
        exact (Array.getElem?_eq_some_iff.mp
          (getElem?_regions_computeRegions.mpr ⟨l, hl, rfl⟩)).1
      index := by
        intro r region hregion
        obtain ⟨l, -, rfl⟩ := getElem?_regions_computeRegions.mp hregion
        rfl
      mem_tasks := by
        intro r region hregion
        obtain ⟨l, hl, rfl⟩ := getElem?_regions_computeRegions.mp hregion
        exact hmem r l hl
      tasks_ascending := by
        intro r region hregion
        obtain ⟨l, hl, rfl⟩ := getElem?_regions_computeRegions.mp hregion
        exact pairwise_lt_of_mem_ascending (f := id) (List.mem_of_getElem? hl)
      mem_blockingGroups := by
        intro r region hregion g
        obtain ⟨l, hl, rfl⟩ := getElem?_regions_computeRegions.mp hregion
        show g ∈ t.blockingGroupsOf l ↔ _
        rw [mem_blockingGroupsOf, IsBlocking, IsBlocking, Reads,
          sameLinks_computeRegions.exchangeAt,
          sameLinks_computeRegions.consumedBy]
        simp only [hmem r l hl]
      blockingGroups_ascending := by
        intro r region hregion
        obtain ⟨l, hl, rfl⟩ := getElem?_regions_computeRegions.mp hregion
        exact pairwise_lt_ascending _ }

end Listed

theorem Whole.regionOf_eq_some_iff (h : t.Whole) {i r : Nat} :
    t.computeRegions.regionOf[i]? = some r ↔
      ∃ l, t.regionMembers[r]? = some l ∧ i ∈ l :=
  Topology.regionOf_eq_some_iff h.classes_regionMembers.flatten_perm

theorem Whole.regioned_computeRegions (h : t.Whole) :
    t.computeRegions.Regioned :=
  Topology.regioned_computeRegions h.classes_regionMembers.flatten_perm

end Compute

/-! ## Calls keep regions -/

theorem IsBlocking.congr {t t' : Topology} {g : Nat}
    (h : t'.exchangeAt g = t.exchangeAt g) :
    t'.IsBlocking g ↔ t.IsBlocking g := by
  rw [IsBlocking, IsBlocking, h]

/-- Only the regions, their table and what tasks consume matter. -/
theorem Regioned.congr {t t' : Topology} (h : t.Regioned)
    (hsize : t'.tasks.size = t.tasks.size) (hregions : t'.regions = t.regions)
    (hregionOf : t'.regionOf = t.regionOf)
    (hconsumedBy : t'.consumedBy = t.consumedBy)
    (hexchangeAt : t'.exchangeAt = t.exchangeAt) : t'.Regioned where
  size := by
    rw [hregionOf, hsize]
    exact h.size
  lt := by
    rw [hregionOf, hregions]
    exact h.lt
  index := by
    rw [hregions]
    exact h.index
  mem_tasks := by
    rw [hregions, hregionOf]
    exact h.mem_tasks
  tasks_ascending := by
    rw [hregions]
    exact h.tasks_ascending
  mem_blockingGroups := by
    intro r region hregion g
    rw [IsBlocking.congr (congrFun hexchangeAt g), Reads, hregionOf,
      hconsumedBy]
    exact h.mem_blockingGroups r region (hregions ▸ hregion) g
  blockingGroups_ascending := by
    rw [hregions]
    exact h.blockingGroups_ascending

theorem Attempted.regioned {t t' : Topology} {i : Nat} {a : Attempt}
    (ha : Attempted t i a t') (h : t.Regioned) : t'.Regioned :=
  h.congr ha.size ha.regions ha.regionOf ha.links.consumedBy
    ha.links.exchangeAt

section Extend

variable {t t' : Topology} {o : Operator} {sibling n r : Nat}

theorem toList_foldl_push {α β : Type*} (l : List β) (a : Array α) (x : α) :
    (l.foldl (fun a _ => a.push x) a).toList =
      a.toList ++ List.replicate l.length x := by
  induction l generalizing a with
  | nil => simp
  | cons y l ih =>
    rw [List.foldl_cons, ih]
    simp [List.replicate_succ]

theorem size_foldl_push {α β : Type*} (l : List β) (a : Array α) (x : α) :
    (l.foldl (fun a _ => a.push x) a).size = a.size + l.length := by
  rw [← Array.length_toList, toList_foldl_push]
  simp

theorem getElem?_foldl_push {α β : Type*} (l : List β) (a : Array α) (x : α)
    (i : Nat) :
    (l.foldl (fun a _ => a.push x) a)[i]? =
      if i < a.size then a[i]?
      else if i < a.size + l.length then some x else none := by
  rw [← Array.getElem?_toList, toList_foldl_push, List.getElem?_append,
    List.getElem?_replicate, Array.length_toList, Array.getElem?_toList]
  split_ifs <;> first | rfl | omega

/-- The added tasks are in the region of the sibling. -/
theorem Extended.regionOf_getElem? (hext : Extended t o sibling n t')
    (h : t.Regioned) (hr : t.regionOf[sibling]? = some r) (i : Nat) :
    t'.regionOf[i]? =
      if i < t.tasks.size then t.regionOf[i]?
      else if i < t.tasks.size + n then some r else none := by
  rw [hext.regionOf, getElem?_foldl_push, hr, h.size]
  simp

theorem Extended.getElem?_regions (hext : Extended t o sibling n t')
    (hr : t.regionOf[sibling]? = some r) (s : Nat) :
    t'.regions[s]? = if r = s then t.regions[s]?.map fun region =>
        { region with
          tasks := ascending (region.tasks ++
            (List.range n).map (t.tasks.size + ·)) }
      else t.regions[s]? := by
  rw [hext.regions, hr, Array.getElem?_modify]
  rfl

theorem Extended.reads_iff (hext : Extended t o sibling n t')
    (h : t.Regioned) (hr : t.regionOf[sibling]? = some r) {s g : Nat} :
    t'.Reads s g ↔ t.Reads s g := by
  have hregionOf := hext.regionOf_getElem? h hr
  constructor
  · rintro ⟨i, hi, hg⟩
    rw [hregionOf] at hi
    rw [hext.consumedBy] at hg
    split at hi
    · rename_i hlt
      rw [if_pos hlt] at hg
      exact ⟨i, hi, hg⟩
    · rename_i hlt
      split at hi
      · rename_i hadded
        rw [if_neg hlt, if_pos hadded] at hg
        exact ⟨sibling, hr.trans hi, hg⟩
      · cases hi
  · rintro ⟨i, hi, hg⟩
    have hlt : i < t.tasks.size := lt_of_mem_consumedBy hg
    refine ⟨i, ?_, ?_⟩
    · rw [hregionOf, if_pos hlt]
      exact hi
    · rw [hext.consumedBy, if_pos hlt]
      exact hg

/-- A region afterwards is one from before, with the added tasks if it is
the region of the sibling. -/
theorem Extended.exists_region (hext : Extended t o sibling n t')
    (h : t.Regioned) (hr : t.regionOf[sibling]? = some r) {s : Nat}
    {region' : PipelinedRegion} (hs : t'.regions[s]? = some region') :
    ∃ region, t.regions[s]? = some region ∧ region'.index = region.index ∧
      region'.blockingGroups = region.blockingGroups ∧
      (region'.tasks.Pairwise (· < ·)) ∧
      ∀ i : Nat, i ∈ region'.tasks ↔ i ∈ region.tasks ∨
        (r = s ∧ t.tasks.size ≤ i ∧ i < t.tasks.size + n) := by
  rw [hext.getElem?_regions hr] at hs
  split at hs
  · rename_i hrs
    obtain ⟨region, hregion, rfl⟩ := Option.map_eq_some_iff.mp hs
    refine ⟨region, hregion, rfl, rfl, pairwise_lt_ascending _, ?_⟩
    intro i
    rw [mem_ascending, List.mem_append, List.mem_map]
    simp only [List.mem_range, hrs, true_and]
    exact or_congr_right ⟨fun ⟨k, hk, hki⟩ => by omega, fun ⟨hle, hlt⟩ =>
      ⟨i - t.tasks.size, by omega, by omega⟩⟩
  · rename_i hrs
    exact ⟨region', hs, rfl, rfl, h.tasks_ascending s region' hs,
      by simp [hrs]⟩

theorem Extended.regioned (hext : Extended t o sibling n t')
    (h : t.Regioned) (hsibling : sibling < t.tasks.size) : t'.Regioned := by
  obtain ⟨r, hr⟩ := h.exists_regionOf hsibling
  have hregionOf := hext.regionOf_getElem? h hr
  have hsize : t'.regions.size = t.regions.size := by
    rw [hext.regions, Array.size_modify]
  exact
    { size := by
        rw [hext.regionOf, size_foldl_push, h.size, hext.size, List.length_map,
          List.length_range]
      lt := by
        intro i s hs
        rw [hregionOf] at hs
        rw [hsize]
        split at hs
        · exact h.lt i s hs
        · split at hs
          · exact h.lt sibling s (hr.trans hs)
          · cases hs
      index := by
        intro s region' hs
        obtain ⟨region, hregion, hindex, -⟩ := hext.exists_region h hr hs
        exact hindex.trans (h.index s region hregion)
      mem_tasks := by
        intro s region' hs i
        obtain ⟨region, hregion, -, -, -, hmem⟩ := hext.exists_region h hr hs
        rw [hmem, h.mem_tasks s region hregion, hregionOf]
        by_cases hlt : i < t.tasks.size
        · rw [if_pos hlt]
          simp [Nat.not_le.mpr hlt]
        · have hnone : t.regionOf[i]? = none := by
            rw [Array.getElem?_eq_none_iff, h.size]
            omega
          rw [if_neg hlt, hnone]
          by_cases hadded : i < t.tasks.size + n
          · simp [hadded, Nat.not_lt.mp hlt]
          · simp [hadded]
      tasks_ascending := by
        intro s region' hs
        obtain ⟨-, -, -, -, hascending, -⟩ := hext.exists_region h hr hs
        exact hascending
      mem_blockingGroups := by
        intro s region' hs g
        obtain ⟨region, hregion, -, hblocking, -, -⟩ := hext.exists_region h hr hs
        rw [hblocking, IsBlocking.congr (hext.exchangeAt g),
          hext.reads_iff h hr]
        exact h.mem_blockingGroups s region hregion g
      blockingGroups_ascending := by
        intro s region' hs
        obtain ⟨region, hregion, -, hblocking, -, -⟩ := hext.exists_region h hr hs
        rw [hblocking]
        exact h.blockingGroups_ascending s region hregion }

end Extend

/-- Regions are in order in all reachable topologies. -/
theorem Reachable.regioned {t : Topology} (h : t.Reachable) :
    t.Regioned := by
  induction h with
  | built hg h =>
    obtain ⟨t0, hwhole, -, rfl⟩ := exists_of_ofJobGraph hg.wellFormed h
    exact hwhole.regioned_computeRegions
  | @call t h c ih =>
    rcases h.whole.call_cases c with
      heq | ⟨i, a, -, ha⟩ | ⟨o, i, n, ho, hi, hext⟩
    · rw [heq]
      exact ih
    · exact ha.regioned ih
    · obtain ⟨id, hid, -⟩ := (h.whole.staffed.mem_tasks ho).mp hi
      exact hext.regioned ih (lt_of_taskIdAt hid)

end Topology

end ControlPlane
