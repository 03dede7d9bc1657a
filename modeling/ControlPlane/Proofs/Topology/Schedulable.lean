import Mathlib
import ControlPlane.Proofs.Topology.Cohesive

/-!
# Regions stay schedulable

Regions can be scheduled one after the other as long as none of them waits
for itself through others. A new topology has such regions: a cycle between
regions would be a cycle between their tasks, and the tasks of a cycle share a
region. Rescaling computes no region again, but a new subtask feeds and is
fed like its sibling, in whose region it is, so it brings no dependency
between regions that was not there before.
-/

namespace ControlPlane

namespace Topology

/-- Something that the first region produces is consumed in the second one. -/
def RegionArc (t : Topology) (r s : RegionIndex) : Prop :=
  r ≠ s ∧ ∃ (i j : Nat) (kind : ResultKind), t.regionOf[i]? = some r ∧
    t.regionOf[j]? = some s ∧ t.Feeds i j kind

/-- No region depends on itself through others. -/
def AcyclicRegions (t : Topology) : Prop :=
  ∀ r, ¬ Relation.TransGen t.RegionArc r r

/-- Regions have members, and come in the order of their smallest ones. -/
structure Ranked (t : Topology) : Prop where
  nonempty : ∀ (r : Nat) region, t.regions[r]? = some region →
    region.tasks ≠ []
  numbered : ∀ (r s : Nat) region region', t.regions[r]? = some region →
    t.regions[s]? = some region' → r < s →
    ∃ i j, region.tasks.min? = some i ∧ region'.tasks.min? = some j ∧ i < j

/-- The regions are a partition of the tasks by which the job can be
scheduled. -/
structure Schedulable (t : Topology) : Prop extends t.Regioned, t.Ranked where
  unique : ∀ i < t.tasks.size, ∃! r : Nat, ∃ region,
    t.regions[r]? = some region ∧ i ∈ region.tasks
  /-- Pipelined data does not leave its region. -/
  pipelined : ∀ i j : Nat, t.Feeds i j .pipelined →
    ∃ r : Nat, t.regionOf[i]? = some r ∧ t.regionOf[j]? = some r
  acyclic : t.AcyclicRegions

/-! ## A new topology -/

/-- Two tasks belong together, or one feeds the other. -/
def Linked (t : Topology) (i j : TaskIndex) : Prop :=
  t.Together i j ∨ ∃ kind, t.Feeds i j kind

section New

variable {t : Topology} (h : t.Whole)

include h

theorem Whole.lt_of_linked {i j : Nat} (hi : i < t.tasks.size)
    (hl : t.Linked i j) : j < t.tasks.size := by
  rcases hl with (hm | ⟨-, id, -, hj, -⟩) | hf
  · exact h.lt_of_reaches hi hm.1
  · exact lt_of_taskIdAt hj
  · exact (h.lt_of_taskArc (.inl hf)).2

/-- What links tasks links their vertices. -/
theorem Whole.reaches_vertex_of_linked {i j : Nat}
    (hl : Relation.ReflTransGen t.Linked i j) {a b : TaskId}
    (hi : t.taskIdAt i = some a) (hj : t.taskIdAt j = some b) :
    Relation.ReflTransGen t.graph.VertexArc a.vertex b.vertex := by
  induction hl using Relation.ReflTransGen.head_induction_on generalizing a with
  | refl =>
    rw [hi, Option.some.injEq] at hj
    exact hj ▸ .refl
  | @head i k hik _ ih =>
    obtain ⟨c, hk⟩ := exists_taskIdAt (h.lt_of_linked (lt_of_taskIdAt hi) hik)
    rcases hik with htogether | hf
    · exact (h.mutual_of_together hi hk htogether).1.trans (ih hk)
    · exact .head (h.vertexArc (.inl hf) hi hk) (ih hk)

/-- Outside of fully wired classes, links along a cycle are made of arcs. -/
theorem Whole.reaches_of_linked {i j : Nat} {a : TaskId}
    (hi : t.taskIdAt i = some a) (hshuffle : ¬ t.graph.InShuffle a.vertex)
    (hij : Relation.ReflTransGen t.Linked i j)
    (hji : Relation.ReflTransGen t.Linked j i) :
    Relation.ReflTransGen t.TaskArc i j := by
  induction hij with
  | refl => exact .refl
  | @tail k j hik hkj ih =>
    have hik' := ih (.head hkj hji)
    refine hik'.trans ?_
    have hki := Relation.ReflTransGen.head hkj hji
    rcases hkj with (hm | ⟨b, -, hk, -, -, hin⟩) | hf
    · exact hm.1
    · -- The vertex of `k` is on a cycle with that of `i`.
      have hmutual : Mutual t.graph.VertexArc b.vertex a.vertex :=
        ⟨h.reaches_vertex_of_linked hki hk hi,
          h.reaches_vertex_of_linked hik hi hk⟩
      exact absurd (hin.mutual hmutual) hshuffle
    · exact .single (.inl hf)

/-- Tasks that are linked in a circle belong together. -/
theorem Whole.together_of_linked {i j : Nat} (hi : i < t.tasks.size)
    (hl : Mutual t.Linked i j) : t.Together i j := by
  obtain ⟨hij, hji⟩ := hl
  obtain ⟨a, ha⟩ := exists_taskIdAt hi
  have hj : j < t.tasks.size := by
    induction hij with
    | refl => exact hi
    | tail _ hkj ih => exact h.lt_of_linked (ih (.head hkj hji)) hkj
  obtain ⟨b, hb⟩ := exists_taskIdAt hj
  have hmutual : Mutual t.graph.VertexArc a.vertex b.vertex :=
    ⟨h.reaches_vertex_of_linked hij ha hb,
      h.reaches_vertex_of_linked hji hb ha⟩
  by_cases hshuffle : t.graph.InShuffle a.vertex
  · exact .inr ⟨a, b, ha, hb, hmutual, hshuffle⟩
  · have hshuffle' : ¬ t.graph.InShuffle b.vertex := fun hin =>
      hshuffle (hin.mutual hmutual.symm)
    exact .inl ⟨h.reaches_of_linked ha hshuffle hij hji,
      h.reaches_of_linked hb hshuffle' hji hij⟩

omit h in
/-- If regions are the classes of tasks that belong together, dependencies
between regions link all of their tasks. -/
theorem Partitioned.linked_of_regionArcs (hp : t.Partitioned)
    (hr : t.Regioned) {i j r s : Nat} (hi : t.regionOf[i]? = some r)
    (hj : t.regionOf[j]? = some s)
    (hrs : Relation.ReflTransGen t.RegionArc r s) :
    Relation.ReflTransGen t.Linked i j := by
  have hsame : ∀ {k l q : Nat}, t.regionOf[k]? = some q →
      t.regionOf[l]? = some q → t.Linked k l := by
    intro k l q hk hl
    have hlt : ∀ {m : Nat}, t.regionOf[m]? = some q → m < t.tasks.size :=
      fun hm => hr.size ▸ (Array.getElem?_eq_some_iff.mp hm).1
    exact .inl ((hp.shared k l (hlt hk) (hlt hl)).mp (hk.trans hl.symm))
  induction hrs generalizing j with
  | refl => exact .single (hsame hi hj)
  | tail _ harc ih =>
    obtain ⟨-, k, l, kind, hk, hl, hf⟩ := harc
    exact ((ih hk).tail (.inr ⟨kind, hf⟩)).tail (hsame hl hj)

theorem Whole.acyclicRegions (hp : t.Partitioned) (hr : t.Regioned) :
    t.AcyclicRegions := by
  intro r hcycle
  obtain ⟨s, ⟨hne, i, j, kind, hi, hj, hf⟩, hback⟩ :=
    Relation.TransGen.head'_iff.mp hcycle
  have hlt := h.lt_of_taskArc (.inl ⟨kind, hf⟩)
  have htogether := h.together_of_linked hlt.1
    ⟨.single (.inr ⟨kind, hf⟩), hp.linked_of_regionArcs hr hj hi hback⟩
  have hshared := (hp.shared i j hlt.1 hlt.2).mpr htogether
  rw [hi, hj, Option.some.injEq] at hshared
  exact hne hshared

theorem Whole.ranked_computeRegions : t.computeRegions.Ranked where
  nonempty := by
    intro r region hregion
    obtain ⟨l, hl, rfl⟩ := getElem?_regions_computeRegions.mp hregion
    exact h.classes_regionMembers.nonempty l (List.mem_of_getElem? hl)
  numbered := h.partitioned_computeRegions.numbered

end New

/-! ## Rescaling -/

section Extend

variable {t t' : Topology} {o : Operator} {sibling n : Nat}

/-- A task feeds another one if their stand-ins did. -/
theorem Extended.feeds_standIn (hext : Extended t o sibling n t')
    (h : t.Whole) (ho : o ∈ t.operators) (hsibling : sibling ∈ o.tasks)
    {i j : Nat} {kind : ResultKind} (hf : t'.Feeds i j kind) :
    t.Feeds (t.standIn sibling i) (t.standIn sibling j) kind := by
  obtain ⟨b, hb, hvertex⟩ := (h.staffed.mem_tasks ho).mp hsibling
  obtain ⟨hi, hj⟩ := hext.whole.lt_of_taskArc (.inl ⟨kind, hf⟩)
  obtain ⟨id, hid⟩ := exists_taskIdAt hi
  obtain ⟨id', hid'⟩ := exists_taskIdAt hj
  have hsubtask : b.subtask < t.graph.parallelismOf o.id :=
    hvertex ▸ h.exists_taskIdAt_iff.mp ⟨sibling, hb⟩
  rw [hext.whole.feeds_iff hid hid'] at hf
  exact (h.feeds_iff (hext.taskIdAt_standIn h ho hb hvertex hid)
    (hext.taskIdAt_standIn h ho hb hvertex hid')).mpr
      ((hext.widened h ho).subtaskFeeds_takenFor h.graph hsubtask hf)

theorem Extended.regionArc (hext : Extended t o sibling n t') (h : t.Whole)
    (hr : t.Regioned) (ho : o ∈ t.operators) (hsibling : sibling ∈ o.tasks)
    {r s : Nat} (harc : t'.RegionArc r s) : t.RegionArc r s := by
  obtain ⟨hne, i, j, kind, hi, hj, hf⟩ := harc
  obtain ⟨id, hid, -⟩ := (h.staffed.mem_tasks ho).mp hsibling
  have hlt := lt_of_taskIdAt hid
  have hends := hext.whole.lt_of_taskArc (.inl ⟨kind, hf⟩)
  rw [hext.regionOf_standIn hr hlt hends.1] at hi
  rw [hext.regionOf_standIn hr hlt hends.2] at hj
  exact ⟨hne, _, _, kind, hi, hj, hext.feeds_standIn h ho hsibling hf⟩

/-- New tasks come behind the smallest one of their region. -/
theorem Extended.min?_tasks (hext : Extended t o sibling n t')
    (h : t.Regioned) (hranked : t.Ranked) (hsibling : sibling < t.tasks.size)
    {s : Nat} {region' : PipelinedRegion} (hs : t'.regions[s]? = some region') :
    ∃ region, t.regions[s]? = some region ∧
      region'.tasks.min? = region.tasks.min? ∧ region'.tasks ≠ [] := by
  obtain ⟨r, hr⟩ := h.exists_regionOf hsibling
  obtain ⟨region, hregion, -, -, -, hmem⟩ := hext.exists_region h hr hs
  obtain ⟨i, hi⟩ :=
    List.exists_mem_of_ne_nil _ (hranked.nonempty s region hregion)
  have hmin := List.isSome_min?_of_mem hi
  obtain ⟨m, hm⟩ := Option.isSome_iff_exists.mp hmin
  obtain ⟨hmregion, hle⟩ := List.min?_eq_some_iff.mp hm
  refine ⟨region, hregion, ?_, List.ne_nil_of_mem ((hmem i).mpr (.inl hi))⟩
  rw [hm, List.min?_eq_some_iff]
  refine ⟨(hmem m).mpr (.inl hmregion), fun k hk => ?_⟩
  rcases (hmem k).mp hk with hk | ⟨-, hk, -⟩
  · exact hle k hk
  · have hlt : m < t.tasks.size := by
      rw [← h.size]
      exact (Array.getElem?_eq_some_iff.mp
        ((h.mem_tasks s region hregion m).mp hmregion)).1
    exact Nat.le_of_lt (Nat.lt_of_lt_of_le hlt hk)

theorem Extended.ranked (hext : Extended t o sibling n t') (h : t.Regioned)
    (hranked : t.Ranked) (hsibling : sibling < t.tasks.size) :
    t'.Ranked where
  nonempty := by
    intro r region' hregion'
    obtain ⟨-, -, -, hne⟩ := hext.min?_tasks h hranked hsibling hregion'
    exact hne
  numbered := by
    intro r s region region' hr hs hrs
    obtain ⟨x, hx, hminx, -⟩ := hext.min?_tasks h hranked hsibling hr
    obtain ⟨y, hy, hminy, -⟩ := hext.min?_tasks h hranked hsibling hs
    rw [hminx, hminy]
    exact hranked.numbered r s x y hx hy hrs

end Extend

/-! ## Reachable topologies -/

theorem Attempted.regionArc_eq {t t' : Topology} {i : Nat} {a : Attempt}
    (ha : Attempted t i a t') : t'.RegionArc = t.RegionArc := by
  funext r s
  simp only [RegionArc, Feeds, ha.regionOf, ha.links.consumedBy,
    ha.links.partitionsIn, ha.links.outputAt]

/-- No two regions of a reachable topology depend on each other. -/
theorem Reachable.acyclicRegions {t : Topology} (h : t.Reachable) :
    t.AcyclicRegions := by
  induction h with
  | built hg h =>
    obtain ⟨t0, hwhole, -, rfl⟩ := exists_of_ofJobGraph hg.wellFormed h
    exact hwhole.computeRegions.acyclicRegions
      hwhole.partitioned_computeRegions hwhole.regioned_computeRegions
  | @call t h c ih =>
    rcases h.whole.call_cases c with
      heq | ⟨i, a, -, ha⟩ | ⟨o, i, n, ho, hi, hext⟩
    · rw [heq]
      exact ih
    · rw [AcyclicRegions, ha.regionArc_eq]
      exact ih
    · have harc : ∀ r s, (c.run t).RegionArc r s → t.RegionArc r s :=
        fun _ _ => hext.regionArc h.whole h.regioned ho hi
      exact fun r hcycle => ih r (Relation.TransGen.mono harc _ _ hcycle)

theorem Reachable.ranked {t : Topology} (h : t.Reachable) : t.Ranked := by
  induction h with
  | built hg h =>
    obtain ⟨t0, hwhole, -, rfl⟩ := exists_of_ofJobGraph hg.wellFormed h
    exact hwhole.ranked_computeRegions
  | @call t h c ih =>
    rcases h.whole.call_cases c with
      heq | ⟨i, a, -, ha⟩ | ⟨o, i, n, ho, hi, hext⟩
    · rw [heq]
      exact ih
    · refine ⟨?_, ?_⟩ <;> rw [ha.regions]
      · exact ih.nonempty
      · exact ih.numbered
    · obtain ⟨id, hid, -⟩ := (h.whole.staffed.mem_tasks ho).mp hi
      exact hext.ranked h.regioned ih (lt_of_taskIdAt hid)

/-- Pipelined data stays within a region of a reachable topology. -/
theorem Reachable.regionOf_eq_of_feeds {t : Topology} (h : t.Reachable)
    {i j : Nat} (hf : t.Feeds i j .pipelined) :
    ∃ r : Nat, t.regionOf[i]? = some r ∧ t.regionOf[j]? = some r := by
  obtain ⟨hi, hj⟩ := h.whole.lt_of_taskArc (.inl ⟨_, hf⟩)
  obtain ⟨r, hr⟩ := h.regioned.exists_regionOf hi
  have hmutual : Mutual t.TaskArc i j :=
    ⟨.single (.inl ⟨_, hf⟩), .single (.inr hf)⟩
  exact ⟨r, hr, (h.cohesive i j hi hj (.inl hmutual)).symm.trans hr⟩

theorem Reachable.schedulable {t : Topology} (h : t.Reachable) :
    t.Schedulable where
  toRegioned := h.regioned
  toRanked := h.ranked
  unique _ hi := h.regioned.unique hi
  pipelined _ _ hf := h.regionOf_eq_of_feeds hf
  acyclic := h.acyclicRegions

/-! ## Runs -/

/-- No call adds or removes a region. -/
theorem Whole.size_regions_run {t : Topology} (h : t.Whole) (c : Call) :
    (c.run t).regions.size = t.regions.size := by
  rcases h.call_cases c with heq | ⟨i, a, -, ha⟩ | ⟨o, i, n, -, -, hext⟩
  · rw [heq]
  · rw [ha.regions]
  · rw [hext.regions, Array.size_modify]

theorem Reachable.size_regions_runAll {t : Topology} (h : t.Reachable)
    (calls : List Call) : (t.runAll calls).regions.size = t.regions.size := by
  induction calls generalizing t with
  | nil => rfl
  | cons c calls ih => exact (ih (h.call c)).trans (h.whole.size_regions_run c)

/-- After any calls the regions of a built topology are still as many, and
still a partition by which the job can be scheduled. -/
theorem schedulable_runAll {g : JobGraph} (hg : g.Built) {t : Topology}
    (h : ofJobGraph g = .ok t) (calls : List Call) :
    (t.runAll calls).Schedulable ∧
      (t.runAll calls).regions.size = t.regions.size :=
  ⟨((Reachable.built hg h).runAll calls).schedulable,
    (Reachable.built hg h).size_regions_runAll calls⟩

/-- Of the small job, the region of the first sink gets the new sink. -/
theorem schedulable_grown_sample :
    let t := sample.runAll [.extendRegion ⟨sampleSink, 0⟩ 1,
      .extendRegion ⟨sampleSink, 7⟩ 1]
    t.regions.map (·.tasks) = #[[0], [1], [2, 4], [3]] ∧ t.Schedulable ∧
      t.regions.size = sample.regions.size :=
  ⟨by decide +kernel,
    schedulable_runAll built_sampleGraph ofJobGraph_sampleGraph _⟩

end Topology

end ControlPlane
