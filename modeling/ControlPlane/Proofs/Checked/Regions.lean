import Mathlib
import ControlPlane.Proofs.Checked.Expand
import ControlPlane.Proofs.Checked.Partition

/-!
# Finding regions looks up nothing that is not there

The operators of a class are operators, and their tasks are tasks. Operators
follow each other with their tasks, so classes of operators have no task in
common, and splitting them leaves every task in one region. None of this
depends on what the ids of the job graph are.
-/

namespace ControlPlane

namespace Checked

open Region (InRange)

/-! ## The checked regions -/

/-- The dependencies between operators. -/
def operatorDependencies (t : Topology) : Except Stop (List Dependency) :=
  collect t.operators.zipIdx fun (operator, consumer) =>
    operator.inputs.mapM fun edge => do
      let producer ← reach t.operatorIndex[edge.producer]?
      return { producer, consumer, pipelined := edge.kind.isPipelined }

/-- Whether a fully wired edge connects two of the given operators. -/
def hasInnerShuffle (t : Topology) (operators : List Nat) :
    Except Stop Bool :=
  operators.anyM fun pos => do
    (← reach t.operators[pos]?).inputs.anyM fun edge =>
      if edge.pattern = .allToAll then do
        return (← reach t.operatorIndex[edge.producer]?) ∈ operators
      else return false

/-- The dependencies between the given tasks. -/
def taskDependencies (t : Topology) (tasks : List TaskIndex) :
    Except Stop (List Dependency) :=
  let places := Topology.placesIn tasks
  collect tasks.zipIdx fun (index, consumer) => do
    collect (← reach t.tasks[index]?).consumed fun g => do
      let group ← reach t.groups[g]?
      let partitions ← group.partitions.mapM fun p => reach t.partitions[p]?
      return partitions.filterMap fun partition =>
        places[partition.producer]?.map fun producer =>
          { producer, consumer, pipelined := group.kind.isPipelined }

/-- The regions that the tasks of a class of operators form. -/
def splitClass (t : Topology) (operators : List Nat) :
    Except Stop (List (List TaskIndex)) := do
  let tasks ← collect operators fun pos => do
    return (← reach t.operators[pos]?).tasks
  if ← hasInnerShuffle t operators then return [tasks]
  else
    let regions ← partition tasks.length (← taskDependencies t tasks)
    regions.mapM fun region => region.mapM fun i => reach tasks[i]?

/-- The blocking groups read by some of the given tasks. -/
def blockingGroupsOf (t : Topology) (tasks : List TaskIndex) :
    Except Stop (List GroupIndex) := do
  return ascending (← collect tasks fun index => do
    collect (← reach t.tasks[index]?).consumed fun g => do
      return if (← reach t.groups[g]?).kind.isBlocking then [g] else [])

/-- The members of every region. -/
def regionMembers (t : Topology) : Except Stop (List (List TaskIndex)) := do
  let classes ← partition t.operators.length (← operatorDependencies t)
  return ascending ((← collect classes (splitClass t)).map ascending)

/-- Puts the members of a region into the table. -/
def assign (table : Array RegionIndex) (region : List TaskIndex × Nat) :
    Except Stop (Array RegionIndex) :=
  region.1.foldlM (fun table task => do
    let _ ← reach table[task]?
    return table.setIfInBounds task region.2) table

/-- Puts every task into its region. -/
def computeRegions (t : Topology) : Except Stop Topology := do
  let members ← regionMembers t
  let regionOf ← members.zipIdx.foldlM assign
    (Array.replicate t.tasks.size 0)
  let regions ← members.zipIdx.mapM fun (tasks, index) => do
    return { index, tasks, blockingGroups := ← blockingGroupsOf t tasks }
  return { t with regions := regions.toArray, regionOf }

/-! ## Every task is in one region -/

/-- Lists without a common element are not lost when they are put into
order. -/
theorem flatten_ascending_perm {L : List (List Nat)}
    (hne : ∀ l ∈ L, l ≠ []) (hnodup : L.flatten.Nodup) :
    (ascending (L.map ascending)).flatten.Perm L.flatten := by
  obtain ⟨heach, hdisjoint⟩ := List.nodup_flatten.mp hnodup
  have hinside : (L.map ascending).flatten.Perm L.flatten := by
    apply List.Perm.flatten_congr
    rw [List.forall₂_map_left_iff, List.forall₂_same]
    exact fun l hl => Region.ascending_perm (heach l hl)
  have hlists : (L.map ascending).Nodup := by
    rw [List.Nodup, List.pairwise_map]
    refine hdisjoint.imp_of_mem fun {l m} hl _ hlm heq => ?_
    obtain ⟨x, hx⟩ := List.exists_mem_of_ne_nil l (hne l hl)
    have hxm : x ∈ ascending m := heq ▸ mem_ascending.mpr hx
    exact hlm hx (mem_ascending.mp hxm)
  exact (Region.ascending_perm hlists).flatten.trans hinside

section Regions

variable {g : JobGraph} {t : Topology} (h : Expanded g t)

include h

theorem Expanded.inRange_operatorDependencies :
    InRange t.operators.length t.operatorDependencies := by
  intro d hd
  obtain ⟨o, e, ho, -, hproducer, -⟩ :=
    Topology.mem_operatorDependencies.mp hd
  exact ⟨h.index _ _ hproducer, (List.getElem?_eq_some_iff.mp ho).1⟩

/-- The classes of operators share out the tasks. -/
theorem Expanded.flatMap_tasksAt {classes : List (List Nat)}
    (hclasses : classes.flatten.Perm (List.range t.operators.length)) :
    (classes.flatMap t.tasksAt).Perm (List.range t.tasks.size) := by
  have hflat : classes.flatMap t.tasksAt = classes.flatten.flatMap fun pos =>
      (t.operators[pos]?.map (·.tasks)).getD [] := by
    rw [← List.flatMap_id, List.flatMap_assoc]
    rfl
  rw [hflat, ← h.tasks, ← flatMap_getElem?_range t.operators]
  exact hclasses.flatMap_right _

omit h in
/-- Splitting a class leaves every task in one part. -/
theorem splitClass_perm {c : List Nat} (hnodup : (t.tasksAt c).Nodup)
    (hne : t.tasksAt c ≠ []) :
    (t.splitClass c).flatten.Perm (t.tasksAt c) ∧
      ∀ l ∈ t.splitClass c, l ≠ [] := by
  have hparts := Region.classes_partition
    (Topology.inRange_taskDependencies (t := t) hnodup)
  unfold Topology.splitClass
  dsimp only
  split
  · show [t.tasksAt c].flatten.Perm (t.tasksAt c) ∧ ∀ l ∈ [t.tasksAt c], l ≠ []
    simpa using hne
  · simp only [List.getElem?_toArray]
    constructor
    · have hall := hparts.flatten_perm.filterMap ((t.tasksAt c)[·]?)
      rwa [filterMap_getElem?_range, List.filterMap_flatten] at hall
    · intro l hl
      obtain ⟨part, hpart, rfl⟩ := List.mem_map.mp hl
      obtain ⟨x, hx⟩ :=
        List.exists_mem_of_ne_nil part (hparts.nonempty part hpart)
      have hlt := (hparts.covers x).mp ⟨part, hpart, hx⟩
      exact List.ne_nil_of_mem
        (List.mem_filterMap.mpr ⟨x, hx, List.getElem?_eq_getElem hlt⟩)

/-- What holds of a class of operators. -/
theorem Expanded.tasksAt_of_mem {c : List Nat}
    (hc : c ∈ Region.partition t.operators.length t.operatorDependencies) :
    (∀ pos ∈ c, pos < t.operators.length) ∧ (t.tasksAt c).Nodup ∧
      t.tasksAt c ≠ [] ∧ ∀ i ∈ t.tasksAt c, i < t.tasks.size := by
  have hclasses := Region.classes_partition h.inRange_operatorDependencies
  have hperm := h.flatMap_tasksAt hclasses.flatten_perm
  have hlt : ∀ pos ∈ c, pos < t.operators.length := fun pos hpos =>
    (hclasses.covers pos).mp ⟨c, hc, hpos⟩
  refine ⟨hlt, ?_, ?_, fun i hi => ?_⟩
  · exact (List.nodup_flatMap.mp (hperm.nodup_iff.mpr List.nodup_range)).1 c hc
  · obtain ⟨pos, hpos⟩ := List.exists_mem_of_ne_nil c (hclasses.nonempty c hc)
    have hget := List.getElem?_eq_getElem (hlt pos hpos)
    obtain ⟨i, hi⟩ := List.exists_mem_of_ne_nil _
      (h.nonempty _ (List.getElem_mem (hlt pos hpos)))
    exact List.ne_nil_of_mem
      (List.mem_flatMap.mpr ⟨pos, hpos, by simpa [hget] using hi⟩)
  · exact List.mem_range.mp
      (hperm.mem_iff.mp (List.mem_flatMap.mpr ⟨c, hc, hi⟩))

/-- The regions list every task once. -/
theorem Expanded.regionMembers_perm :
    t.regionMembers.flatten.Perm (List.range t.tasks.size) := by
  have hclasses := Region.classes_partition h.inRange_operatorDependencies
  set classes := Region.partition t.operators.length t.operatorDependencies
    with hdef
  have hsplit : ∀ c ∈ classes, (t.splitClass c).flatten.Perm (t.tasksAt c) ∧
      ∀ l ∈ t.splitClass c, l ≠ [] := by
    intro c hc
    obtain ⟨-, hnodup, hne, -⟩ := h.tasksAt_of_mem hc
    exact splitClass_perm hnodup hne
  have hflat : (classes.flatMap t.splitClass).flatten =
      classes.flatMap fun c => (t.splitClass c).flatten := by
    rw [← List.flatMap_id, List.flatMap_assoc]
    simp only [List.flatMap_id]
  have hparts : (classes.flatMap t.splitClass).flatten.Perm
      (List.range t.tasks.size) := by
    rw [hflat]
    exact (List.Perm.flatMap_left classes fun c hc => (hsplit c hc).1).trans
      (h.flatMap_tasksAt hclasses.flatten_perm)
  unfold Topology.regionMembers
  dsimp only
  rw [← hdef]
  refine (flatten_ascending_perm (fun l hl => ?_) ?_).trans hparts
  · obtain ⟨c, hc, hl⟩ := List.mem_flatMap.mp hl
    exact (hsplit c hc).2 l hl
  · exact hparts.nodup_iff.mpr List.nodup_range

/-! ## The checked regions are the regions -/

theorem Expanded.exists_producer {o : Operator} (ho : o ∈ t.operators)
    {e : JobEdge} (he : e ∈ o.inputs) :
    ∃ pos, t.operatorIndex[e.producer]? = some pos := by
  have hmem := h.inputs o ho e he
  rwa [Std.TreeMap.mem_iff_isSome_getElem?, Option.isSome_iff_exists] at hmem

theorem operatorDependencies_eq_ok :
    operatorDependencies t = .ok t.operatorDependencies := by
  apply collect_eq_ok
  rintro ⟨o, consumer⟩ ho
  apply mapM_eq_ok_filterMap
  intro e he
  obtain ⟨pos, hpos⟩ :=
    h.exists_producer (List.fst_mem_of_mem_zipIdx ho) he
  simp [hpos]

theorem hasInnerShuffle_eq_ok {c : List Nat}
    (hc : ∀ pos ∈ c, pos < t.operators.length) :
    hasInnerShuffle t c = .ok (t.hasInnerShuffle c) := by
  apply anyM_eq_ok
  intro pos hpos
  have hget := List.getElem?_eq_getElem (hc pos hpos)
  rw [hget, reach_some, ok_bind, Option.map_some, Option.getD_some]
  apply anyM_eq_ok
  intro e he
  obtain ⟨producer, hproducer⟩ :=
    h.exists_producer (List.getElem_mem (hc pos hpos)) he
  by_cases hpattern : e.pattern = .allToAll <;> simp [hpattern, hproducer]

theorem taskDependencies_eq_ok {tasks : List TaskIndex}
    (htasks : ∀ i ∈ tasks, i < t.tasks.size) :
    taskDependencies t tasks = .ok (t.taskDependencies tasks) := by
  apply collect_eq_ok
  rintro ⟨index, consumer⟩ hindex
  have hlt := htasks index (List.fst_mem_of_mem_zipIdx hindex)
  have hget := Array.getElem?_eq_getElem hlt
  dsimp only
  rw [hget, reach_some, ok_bind]
  apply collect_reach
  intro g hg
  have hglt := h.consumed _ (Array.getElem_mem hlt) g hg
  refine ⟨_, Array.getElem?_eq_getElem hglt, ?_⟩
  have hall : (t.groups[g]).partitions.mapM
      (fun p => reach t.partitions[p]?) =
        .ok (t.partitionsOf (t.groups[g]).partitions) :=
    mapM_eq_ok_filterMap fun p hp => by
      have hplt := h.partitions _ (Array.getElem_mem hglt) p hp
      simp [hplt]
  rw [hall]
  rfl

theorem blockingGroupsOf_eq_ok {tasks : List TaskIndex}
    (htasks : ∀ i ∈ tasks, i < t.tasks.size) :
    blockingGroupsOf t tasks = .ok (t.blockingGroupsOf tasks) := by
  have hall : (collect tasks fun index => do
      collect (← reach t.tasks[index]?).consumed fun g => do
        return if (← reach t.groups[g]?).kind.isBlocking then [g] else []) =
      .ok ((t.tasksOf tasks).flatMap fun task => task.consumed.filter fun g =>
        (t.groups[g]?.map (·.kind.isBlocking)).getD false) := by
    apply collect_reach
    intro i hi
    have hlt := htasks i hi
    refine ⟨_, Array.getElem?_eq_getElem hlt, ?_⟩
    rw [filter_eq_flatMap]
    apply collect_eq_ok
    intro g hg
    have hglt := h.consumed _ (Array.getElem_mem hlt) g hg
    simp [hglt]
  rw [blockingGroupsOf, hall]
  rfl

/-- Splitting a class of operators into regions. -/
theorem splitClass_eq_ok {c : List Nat}
    (hc : c ∈ Region.partition t.operators.length t.operatorDependencies) :
    splitClass t c = .ok (t.splitClass c) := by
  obtain ⟨hlt, hnodup, -, htasks⟩ := h.tasksAt_of_mem hc
  have hall : (collect c fun pos => do
      return (← reach t.operators[pos]?).tasks) = .ok (t.tasksAt c) := by
    apply collect_eq_ok
    intro pos hpos
    simp [hlt pos hpos]
  have hdeps := Topology.inRange_taskDependencies (t := t) hnodup
  have hparts := Region.classes_partition hdeps
  unfold splitClass Topology.splitClass
  rw [hall, ok_bind, hasInnerShuffle_eq_ok h hlt, ok_bind]
  dsimp only
  rw [← Topology.tasksAt]
  split
  · rfl
  · rw [taskDependencies_eq_ok h htasks, ok_bind, partition_eq_ok hdeps,
      ok_bind]
    apply mapM_eq_ok
    intro part hpart
    apply mapM_eq_ok_filterMap
    intro x hx
    have hxlt := (hparts.covers x).mp ⟨part, hpart, hx⟩
    simp [hxlt]

theorem regionMembers_eq_ok : regionMembers t = .ok t.regionMembers := by
  rw [regionMembers, operatorDependencies_eq_ok h, ok_bind,
    partition_eq_ok h.inRange_operatorDependencies, ok_bind,
    collect_eq_ok fun c hc => splitClass_eq_ok h hc]
  rfl

omit h in
/-- The table has an entry for every task of a region. -/
theorem assign_eq_ok {table : Array RegionIndex}
    {region : List TaskIndex × Nat}
    (hregion : ∀ i ∈ region.1, i < table.size) :
    assign table region =
      .ok (region.1.foldl (·.setIfInBounds · region.2) table) := by
  refine (foldlM_eq_ok (P := fun a => a.size = table.size)
    (fun i hi a ha => ⟨?_, ?_⟩) rfl).1
  · rw [reach_array ((hregion i hi).trans_eq ha.symm)]
    rfl
  · rw [Array.size_setIfInBounds, ha]

/-- Every region is found, and every task is put into its region. -/
theorem computeRegions_eq_ok : computeRegions t = .ok t.computeRegions := by
  have hlt : ∀ x ∈ t.regionMembers.zipIdx, ∀ i ∈ x.1, i < t.tasks.size := by
    intro x hx i hi
    have hmem := List.fst_mem_of_mem_zipIdx hx
    exact List.mem_range.mp (h.regionMembers_perm.mem_iff.mp
      (List.mem_flatten.mpr ⟨x.1, hmem, hi⟩))
  have htable := (foldlM_eq_ok (f := assign) (l := t.regionMembers.zipIdx)
    (g := fun table x => x.1.foldl (·.setIfInBounds · x.2) table)
    (P := fun a => a.size = t.tasks.size)
    (fun x hx a ha => ⟨assign_eq_ok fun i hi =>
      (hlt x hx i hi).trans_eq ha.symm, by
        rw [size_foldl_setIfInBounds, ha]⟩)
    (s := Array.replicate t.tasks.size 0) Array.size_replicate).1
  have hregions := mapM_eq_ok (l := t.regionMembers.zipIdx)
    (f := fun x => do
      return { index := x.2, tasks := x.1,
               blockingGroups := ← blockingGroupsOf t x.1 : PipelinedRegion })
    (g := fun x => ⟨x.2, x.1, t.blockingGroupsOf x.1⟩) fun x hx => by
      rw [blockingGroupsOf_eq_ok h (hlt x hx)]
      rfl
  rw [computeRegions, regionMembers_eq_ok h, ok_bind, htable, ok_bind]
  exact congrArg (· >>= _) hregions

end Regions

end Checked

end ControlPlane
