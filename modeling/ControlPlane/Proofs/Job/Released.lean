import Mathlib
import ControlPlane.Proofs.Job.Coupling

/-!
# What a job releases

A report releases a group exactly when it finishes the last task that reads
the group, whatever calls were made before. So a group is released again
only after a task that reads it has left the finished state or was added.
-/

namespace ControlPlane

namespace Topology

/-- Every task of a region has finished. -/
def RegionFinished (t : Topology) (r : RegionIndex) : Prop :=
  ∀ i : Nat, t.regionOf[i]? = some r → t.IsFinished i

/-- Every task of every region with a consumer of a group has finished. -/
def Drained (t : Topology) (g : GroupIndex) : Prop :=
  ∀ r, t.Reads r g → t.RegionFinished r

theorem regionFinished_iff {t : Topology} {r : Nat} :
    t.RegionFinished r ↔ ∀ i, ¬ t.Waiting r i := by
  simp only [RegionFinished, Waiting, not_and, not_not]

theorem drained_iff {t : Topology} {g : Nat} (hg : t.IsBlocking g) :
    t.Drained g ↔ ∀ r, t.ReadsBlocking r g → ∀ i, ¬ t.Waiting r i := by
  simp only [Drained, regionFinished_iff, ReadsBlocking, hg, true_and]

end Topology

namespace JobState

open ControlPlane.Topology

/-- What a report may release that moves a task of a region to a state. -/
structure Releases (t t' : Topology) (i : TaskIndex) (r : RegionIndex)
    (state : TaskState) (released : List ReleasedGroup) : Prop where
  /-- Something is released only when the region has finished now. -/
  only : released ≠ [] →
    state = .finished ∧ ¬ t.IsFinished i ∧ t'.RegionFinished r
  /-- Then it is the blocking groups of the region that nobody reads. -/
  exact : state = .finished → ¬ t.IsFinished i → t'.RegionFinished r →
    ∀ g, g ∈ released.map (·.group) ↔
      t'.IsBlocking g ∧ t'.Reads r g ∧ t'.Drained g
  drained : ∀ x ∈ released, t'.Reads r x.group ∧ t'.Drained x.group
  nodup : (released.map (·.group)).Nodup
  described : ∀ x ∈ released, describe t' x.group = some x

/-- A call makes a task of a region unfinished that reads a group: it moves
the task out of the finished state, or adds it. -/
def Reopens (s : JobState) (c : Call) (g : GroupIndex) : Prop :=
  ∃ i r : Nat, (c.run s).topology.regionOf[i]? = some r ∧
    (c.run s).topology.Reads r g ∧
    ((s.topology.IsFinished i ∧ ¬ (c.run s).topology.IsFinished i) ∨
      (s.topology.taskIdAt i = none ∧
        ∃ sibling additional, c = .rescale sibling additional))

/-! ## One report -/

theorem map_group_describe {t : Topology} {groups : List Nat}
    (h : ∀ g ∈ groups, t.IsBlocking g) :
    (groups.filterMap (describe t)).map (·.group) = groups := by
  induction groups with
  | nil => rfl
  | cons g groups ih =>
    obtain ⟨hg, hgroups⟩ := List.forall_mem_cons.mp h
    obtain ⟨x, hx, -⟩ := Option.map_eq_some_iff.mp hg
    obtain ⟨group, hgroup, -⟩ := Option.map_eq_some_iff.mp hx
    have hdescribe : ∃ y, describe t g = some y ∧ y.group = g := by
      rw [describe, hgroup]
      exact ⟨_, rfl, rfl⟩
    obtain ⟨y, hy, hyg⟩ := hdescribe
    rw [List.filterMap_cons_some hy, List.map_cons, ih hgroups, hyg]

theorem describe_group {t : Topology} {g : Nat} {x : ReleasedGroup}
    (h : describe t g = some x) : x.group = g := by
  obtain ⟨group, -, rfl⟩ := Option.map_eq_some_iff.mp h
  rfl

section Report

variable {s s' : JobState} {id : TaskId} {state : TaskState} {i k : Nat}
  {a : Attempt} {groups : List GroupIndex}

theorem Reported.isFinished_iff
    (h : s.Reported id state i k a s' groups) :
    s.topology.IsFinished i ↔ a.state = .finished := by
  rw [Topology.isFinished_iff, h.attemptAt]
  simp

theorem Reported.regionOf' (h : s.Reported id state i k a s' groups) :
    s'.topology.regionOf[i]? = some k :=
  h.keeps.steady.regionOf i k h.regionOf

/-- The groups that come free are the drained ones of the region. -/
theorem Reported.mem_groups (h : s.Reported id state i k a s' groups)
    {g : Nat} : g ∈ groups ↔
      (state = .finished ∧ ¬ s.topology.IsFinished i) ∧
        s'.topology.IsBlocking g ∧ s'.topology.Reads k g ∧
        s'.topology.Drained g := by
  rw [h.frees.mem_iff, h.isFinished_iff]
  refine and_congr_right fun _ => ?_
  rw [ReadsBlocking, and_assoc]
  refine and_congr_right fun hg => ?_
  rw [drained_iff hg]

theorem Reported.releases (h : s.Reported id state i k a s' groups) :
    Releases s.topology s'.topology i k state
      (groups.filterMap (describe s'.topology)) := by
  have hmap : (groups.filterMap (describe s'.topology)).map (·.group) =
      groups := map_group_describe fun g hg => (h.mem_groups.mp hg).2.1
  have hmem : ∀ x ∈ groups.filterMap (describe s'.topology),
      x.group ∈ groups ∧ describe s'.topology x.group = some x := by
    intro x hx
    obtain ⟨g, hg, hgx⟩ := List.mem_filterMap.mp hx
    rw [describe_group hgx]
    exact ⟨hg, hgx⟩
  refine ⟨?_, ?_, ?_, ?_, fun x hx => (hmem x hx).2⟩
  · intro hne
    obtain ⟨x, hx⟩ := List.exists_mem_of_ne_nil _ hne
    obtain ⟨hnow, -, hreads, hdrained⟩ := h.mem_groups.mp (hmem x hx).1
    exact ⟨hnow.1, hnow.2, hdrained k hreads⟩
  · intro hstate hprevious _ g
    rw [hmap, h.mem_groups]
    exact and_iff_right ⟨hstate, hprevious⟩
  · intro x hx
    exact (h.mem_groups.mp (hmem x hx).1).2.2
  · rw [hmap]
    exact h.frees.nodup

end Report

/-! ## Two reports -/

/-- A task that waits in the end, although it had finished or did not exist,
was made to by some call. -/
theorem Coupled.exists_reopens {s : JobState} (h : s.Coupled)
    {calls : List Call} {i r g : Nat}
    (hstart : s.topology.IsFinished i ∨ s.topology.taskIdAt i = none)
    (hend : (s.runAll calls).topology.Waiting r i)
    (hreads : (s.runAll calls).topology.Reads r g) :
    ∃ pre c post, calls = pre ++ c :: post ∧ Reopens (s.runAll pre) c g := by
  induction calls generalizing s with
  | nil =>
    obtain ⟨hr, hnot⟩ := hend
    rcases hstart with hfinished | hnone
    · exact absurd hfinished hnot
    · have hlt := h.reachable.regioned.size ▸
        (Array.getElem?_eq_some_iff.mp hr).1
      obtain ⟨id, hid⟩ := exists_taskIdAt hlt
      rw [hnone] at hid
      cases hid
  | cons c calls ih =>
    obtain ⟨hstep, hids⟩ := h.run c
    have hrest := hstep.coupled.runAll calls
    -- If the task is no different after the first call, a later one is meant.
    by_cases hlater : (c.run s).topology.IsFinished i ∨
        (c.run s).topology.taskIdAt i = none
    · obtain ⟨pre, c', post, rfl, hreopens⟩ :=
        ih hstep.coupled hlater hend hreads
      exact ⟨c :: pre, c', post, rfl, hreopens⟩
    · -- The first call is the one: the task exists after it, and waits.
      rw [not_or] at hlater
      refine ⟨[], c, calls, rfl, i, r, ?_, (hrest.steady.reads r g).mp hreads,
        ?_⟩
      · obtain ⟨id, hid⟩ := Option.ne_none_iff_exists'.mp hlater.2
        obtain ⟨q, hq⟩ := hstep.coupled.reachable.regioned.exists_regionOf
          (lt_of_taskIdAt hid)
        have hq' := hrest.steady.regionOf i q hq
        rw [← Option.some.inj (hq'.symm.trans hend.1)]
        exact hq
      · rcases hstart with hfinished | hnone
        · exact .inl ⟨hfinished, hlater.1⟩
        · refine .inr ⟨hnone, ?_⟩
          by_contra hnot
          push Not at hnot
          exact hlater.2 (congrFun (hids hnot) i ▸ hnone)

/-- Between two reports that release the same group, some call makes a task
unfinished that reads it. -/
theorem Coupled.reopens_between {s s' : JobState} (h : s.Coupled)
    {calls : List Call} {id : TaskId} {state : TaskState} {g : Nat}
    {released : List ReleasedGroup} (hdrained : s.topology.Drained g)
    (hok : (s.runAll calls).updateState id state = (s', .ok released))
    (hg : g ∈ released.map (·.group)) :
    ∃ pre c post, calls = pre ++ c :: post ∧ Reopens (s.runAll pre) c g := by
  have hrun := h.runAll calls
  rcases hrun.coupled.updateState_cases id state with
    ⟨e, herror⟩ | ⟨i, k, a, s'', groups, hok', hreported⟩
  · rw [herror] at hok
    cases hok
  rw [hok'] at hok
  cases hok
  obtain ⟨x, hx, rfl⟩ := List.mem_map.mp hg
  have hreads := (hreported.releases.drained x hx).1
  have hnot := (hreported.releases.only (List.ne_nil_of_mem hx)).2.1
  have hreads' := (hreported.keeps.steady.reads k x.group).mp hreads
  refine h.exists_reopens ?_ ⟨hreported.regionOf, hnot⟩ hreads'
  -- The task that finishes now had finished then, if it was there.
  cases hid : s.topology.taskIdAt i with
  | none => exact .inr rfl
  | some id' =>
    obtain ⟨q, hq⟩ :=
      h.reachable.regioned.exists_regionOf (lt_of_taskIdAt hid)
    have hqk := (hrun.steady.regionOf i q hq).symm.trans hreported.regionOf
    rw [Option.some.inj hqk] at hq
    exact .inl (hdrained k ((hrun.steady.reads k x.group).mp hreads') i hq)

/-! ## All runs -/

/-- After any calls, a report releases exactly what no task is left to read,
and nothing is released twice unless a task that reads it ran again or was
added. -/
theorem released_exactly {graph : JobGraph} (hgraph : graph.Built)
    {t : Topology} (ht : ofJobGraph graph = .ok t) {config : Config}
    (hconfig : config.release = .region) (isAvailable : PartitionId → Bool)
    (calls : List Call) :
    ∀ id state s' released,
      ((start t config isAvailable).runAll calls).updateState id state =
        (s', .ok released) →
      (∃ i r : Nat, s'.topology.taskIdAt i = some id ∧
        s'.topology.regionOf[i]? = some r ∧
        Releases ((start t config isAvailable).runAll calls).topology
          s'.topology i r state released) ∧
      ∀ between id' state' s'' released',
        (s'.runAll between).updateState id' state' = (s'', .ok released') →
        ∀ g ∈ released.map (·.group), g ∈ released'.map (·.group) →
          ∃ pre c post, between = pre ++ c :: post ∧
            Reopens (s'.runAll pre) c g := by
  intro id state s' released hok
  have hstart := coupled_start hgraph ht hconfig isAvailable
  have hrun := hstart.runAll calls
  rcases hrun.coupled.updateState_cases id state with
    ⟨e, herror⟩ | ⟨i, k, a, s'', groups, hok', hreported⟩
  · rw [herror] at hok
    cases hok
  rw [hok'] at hok
  cases hok
  constructor
  · refine ⟨i, k, ?_, hreported.regionOf', hreported.releases⟩
    rw [hreported.attempted.links.taskIdAt]
    exact hreported.taskIdAt
  · intro between id' state' s''' released' hok'' g hg hg'
    obtain ⟨x, hx, rfl⟩ := List.mem_map.mp hg
    exact hreported.keeps.coupled.reopens_between
      (hreported.releases.drained x hx).2 hok'' hg'

/-! ## The small job -/

/-- Both sinks of the small job run, and the first one has finished. -/
def halfFinished : JobState :=
  (start sample {} (fun _ => true)).runAll [.deploy ⟨sampleSink, 0⟩,
    .deploy ⟨sampleSink, 1⟩, .updateState ⟨sampleSink, 0⟩ .finished]

/-- The groups released when the second sink finishes. -/
def finishSecond (s : JobState) : JobState × Option (List GroupIndex) :=
  let (s, result) := s.updateState ⟨sampleSink, 1⟩ .finished
  (s, result.toOption.map (·.map (·.group)))

theorem updateState_of_finishSecond {s : JobState} {groups : List GroupIndex}
    (h : s.finishSecond.2 = some groups) : ∃ released,
      s.updateState ⟨sampleSink, 1⟩ .finished =
        (s.finishSecond.1, .ok released) ∧
      released.map (·.group) = groups := by
  unfold finishSecond at h ⊢
  cases hok : s.updateState ⟨sampleSink, 1⟩ .finished with
  | mk s' result =>
  rw [hok] at h
  cases result with
  | error e => cases h
  | ok released => exact ⟨released, rfl, Option.some.inj h⟩

/-- The second sink releases what the sources wrote, and again after it has
been deployed once more. -/
theorem released_sample :
    (∃ released, halfFinished.updateState ⟨sampleSink, 1⟩ .finished =
        (halfFinished.finishSecond.1, .ok released) ∧
      released.map (·.group) = [0]) ∧
    ∃ pre c post, [Call.deploy ⟨sampleSink, 1⟩] = pre ++ c :: post ∧
      Reopens (halfFinished.finishSecond.1.runAll pre) c 0 := by
  have honce : halfFinished.finishSecond.2 = some [0] := by decide +kernel
  have hagain : (halfFinished.finishSecond.1.runAll
      [.deploy ⟨sampleSink, 1⟩]).finishSecond.2 = some [0] := by
    decide +kernel
  obtain ⟨released, hok, hgroups⟩ := updateState_of_finishSecond honce
  obtain ⟨released', hok', hgroups'⟩ := updateState_of_finishSecond hagain
  obtain ⟨-, hbetween⟩ := released_exactly built_sampleGraph
    ofJobGraph_sampleGraph rfl (fun _ => true) _ _ _ _ released hok
  exact ⟨⟨released, hok, hgroups⟩, hbetween _ _ _ _ released' hok' 0
    (by simp [hgroups]) (by simp [hgroups'])⟩

end JobState

end ControlPlane
