import Mathlib
import ControlPlane.Failover
import ControlPlane.Proofs.Explore
import ControlPlane.Proofs.Topology.Regioned

/-!
# What restarts after a failure

The regions that restart are the least set with the region of the failed
task that holds, with a region, the producers of the inputs it has lost and
the consumers of what it produces. The search passes through groups and
consumer groups, each only once, and still finds all of it; what it
remembers of a failure is gone after the call.
-/

namespace ControlPlane

namespace Topology

/-! ## The least set of regions -/

/-- A partition that cannot be read: the cause names it, or the checker
rejects it. -/
def Unavailable (isAvailable : PartitionId → Bool) (cause : FailureCause)
    (id : PartitionId) : Prop :=
  cause.partition? = some id ∨ isAvailable id = false

/-- A task consumes a partition of a group. -/
def Consumes (t : Topology) (i : TaskIndex) (g : GroupIndex)
    (p : PartitionIndex) : Prop := g ∈ t.consumedBy i ∧ p ∈ t.partitionsIn g

/-- The regions that restart when a region does. -/
inductive Restarts (t : Topology) (lost : PartitionId → Prop)
    (origin : RegionIndex) : RegionIndex → Prop where
  /-- The region of the failed task. -/
  | failed : Restarts t lost origin origin
  /-- The producer of a lost partition in a group that a task consumes. -/
  | producer {r s : RegionIndex} {i : TaskIndex} {g : GroupIndex}
      {p : PartitionIndex} {x : Output} (h : Restarts t lost origin r)
      (hi : t.regionOf[i]? = some r) (hp : t.Consumes i g p)
      (hx : t.outputAt p = some x) (hlost : lost x.id)
      (hs : t.regionOf[x.producer]? = some s) : Restarts t lost origin s
  /-- A consumer of a partition that a task produces. -/
  | consumer {r s : RegionIndex} {j : TaskIndex} {g : GroupIndex}
      {p : PartitionIndex} {x : Output} (h : Restarts t lost origin r)
      (hx : t.outputAt p = some x) (hr : t.regionOf[x.producer]? = some r)
      (hp : t.Consumes j g p) (hs : t.regionOf[j]? = some s) :
      Restarts t lost origin s

/-! ## What is dragged in directly -/

section Dragged

variable {t : Topology}

theorem mem_regionsOf {tasks : List Nat} {r : Nat} :
    r ∈ t.regionsOf tasks ↔ ∃ i ∈ tasks, t.regionOf[i]? = some r :=
  List.mem_filterMap

theorem Regioned.mem_regionTasks (h : t.Regioned) {r : Nat} {task : Task} :
    task ∈ t.regionTasks r ↔
      ∃ i : Nat, t.regionOf[i]? = some r ∧ t.tasks[i]? = some task := by
  unfold regionTasks
  cases hregion : t.regions[r]? with
  | none =>
    simp only [List.not_mem_nil, false_iff, not_exists, not_and]
    intro i hi
    have hlt := h.lt i r hi
    rw [Array.getElem?_eq_none_iff] at hregion
    omega
  | some region =>
    simp only [tasksOf, List.mem_filterMap, h.mem_tasks r region hregion]

/-- A region reads the groups that its tasks consume. -/
theorem Regioned.input_mem_exchangesOf (h : t.Regioned) {r g : Nat} :
    .input g ∈ t.exchangesOf r ↔ t.Reads r g := by
  simp only [exchangesOf, List.mem_append, List.mem_map, List.mem_flatMap,
    h.mem_regionTasks, Affected.input.injEq, exists_eq_right, reduceCtorEq,
    and_false, exists_false, or_false]
  constructor
  · rintro ⟨task, ⟨i, hi, htask⟩, hg⟩
    exact ⟨i, hi, by simpa [consumedBy, htask] using hg⟩
  · rintro ⟨i, hi, hg⟩
    have htask := Array.getElem?_eq_getElem (lt_of_mem_consumedBy hg)
    exact ⟨_, ⟨i, hi, htask⟩, by simpa [consumedBy, htask] using hg⟩

/-- The readers of a region are those of the partitions of its tasks. -/
theorem Regioned.output_mem_exchangesOf (h : t.Regioned) {r c : Nat} :
    .output c ∈ t.exchangesOf r ↔ ∃ i p : Nat, t.regionOf[i]? = some r ∧
      p ∈ t.producedBy i ∧ c ∈ t.consumersOf p := by
  simp only [exchangesOf, List.mem_append, List.mem_map, List.mem_flatMap,
    Affected.output.injEq, exists_eq_right, reduceCtorEq, and_false,
    exists_false, false_or, partitionsOf, List.mem_filterMap,
    h.mem_regionTasks]
  constructor
  · rintro ⟨part, ⟨p, ⟨task, ⟨i, hi, htask⟩, hp⟩, hpart⟩, hc⟩
    exact ⟨i, p, hi, by simpa [producedBy, htask] using hp,
      by simpa [consumersOf, hpart] using hc⟩
  · rintro ⟨i, p, hi, hp, hc⟩
    have htask := Array.getElem?_eq_getElem (lt_of_mem_producedBy hp)
    have hpart := Array.getElem?_eq_getElem (lt_of_mem_consumersOf hc)
    exact ⟨_, ⟨p, ⟨_, ⟨i, hi, htask⟩,
      by simpa [producedBy, htask] using hp⟩, hpart⟩,
      by simpa [consumersOf, hpart] using hc⟩

theorem region_not_mem_exchangesOf {r s : Nat} :
    .region s ∉ t.exchangesOf r := by
  simp [exchangesOf]

theorem mem_lostProducers {isAvailable : PartitionId → Bool} {g s : Nat} :
    s ∈ t.lostProducers isAvailable g ↔ ∃ p ∈ t.partitionsIn g, ∃ x,
      t.outputAt p = some x ∧ isAvailable x.id = false ∧
        t.regionOf[x.producer]? = some s := by
  simp only [lostProducers, mem_regionsOf, List.mem_map, List.mem_filter,
    partitionsOf, List.mem_filterMap, Bool.not_eq_true']
  constructor
  · rintro ⟨-, ⟨part, ⟨⟨p, hp, hpart⟩, hlost⟩, rfl⟩, hs⟩
    exact ⟨p, hp, _, by rw [outputAt, hpart]; rfl, hlost, hs⟩
  · rintro ⟨p, hp, x, hx, hlost, hs⟩
    obtain ⟨part, hpart, rfl⟩ := Option.map_eq_some_iff.mp hx
    exact ⟨_, ⟨part, ⟨⟨p, hp, hpart⟩, hlost⟩, rfl⟩, hs⟩

theorem mem_readers {c s : Nat} :
    s ∈ t.readers c ↔ ∃ i ∈ t.tasksReading c, t.regionOf[i]? = some s :=
  mem_regionsOf

end Dragged

/-! ## The search -/

section Search

variable {t : Topology} (h : t.Whole) (hr : t.Regioned)
  {isReadable : PartitionId → Bool} {origin : RegionIndex}

/-- Everything that the search may pass through. -/
def affected (t : Topology) : List Affected :=
  (List.range t.regions.size).map .region ++
    (List.range t.groups.size).map .input ++
    (List.range t.consumerGroups.size).map .output

theorem mem_affected {x : Affected} : x ∈ t.affected ↔ match x with
    | .region r => r < t.regions.size
    | .input g => g < t.groups.size
    | .output c => c < t.consumerGroups.size := by
  cases x <;> simp [affected]

include h hr

theorem Whole.dragged_affected (x : Affected) :
    ∀ y ∈ t.dragged isReadable x, y ∈ t.affected := by
  intro y hy
  rw [mem_affected]
  cases x with
  | region r =>
    cases y with
    | region s => exact absurd hy region_not_mem_exchangesOf
    | input g =>
      obtain ⟨i, -, hg⟩ := hr.input_mem_exchangesOf.mp hy
      exact h.wired.grouped.lt_of_mem_consumedBy hg
    | output c =>
      obtain ⟨i, p, -, -, hc⟩ := hr.output_mem_exchangesOf.mp hy
      show c < t.consumerGroups.size
      rw [h.wired.grouped.size]
      exact h.wired.grouped.lt_of_mem_consumersOf hc
  | input g =>
    obtain ⟨s, hs, rfl⟩ := List.mem_map.mp hy
    obtain ⟨p, -, x, -, -, hregion⟩ := mem_lostProducers.mp hs
    exact hr.lt _ s hregion
  | output c =>
    obtain ⟨s, hs, rfl⟩ := List.mem_map.mp hy
    obtain ⟨i, -, hregion⟩ := mem_readers.mp hs
    exact hr.lt _ s hregion

/-- The search has enough steps to find all that is affected. -/
theorem Whole.mem_explore_dragged (ho : origin < t.regions.size)
    {x : Affected} :
    x ∈ explore (t.dragged isReadable)
        (t.regions.size + t.groups.size + t.consumerGroups.size)
        [.region origin] {.region origin} ↔
      x = .region origin ∨
        Search.Follows (t.dragged isReadable) (.region origin) x := by
  have hmem : ∀ {y : Affected}, y ∈ ({.region origin} : Std.TreeSet Affected) ↔
      y = .region origin := by
    intro y
    rw [Std.TreeSet.singleton_eq_insert, Search.mem_insert]
    simp
  have horigin : .region origin ∈ t.affected := mem_affected.mpr ho
  have hlength : t.affected.length =
      t.regions.size + t.groups.size + t.consumerGroups.size := by
    simp [affected, Nat.add_assoc]
  have hlt : t.affected.countP
      (· ∉ ({.region origin} : Std.TreeSet Affected)) < t.affected.length := by
    rw [List.countP_lt_length_iff]
    exact ⟨_, horigin, by simp⟩
  rw [mem_explore t.affected
    (fun y hy => List.mem_singleton.mpr (hmem.mp hy))
    (fun y _ => h.dragged_affected hr y)
    (by rw [List.length_singleton]; omega), hmem]
  simp

/-- What the search may find: regions that restart, groups they read and
consumer groups they feed. -/
def Found (t : Topology) (lost : PartitionId → Prop) (origin : RegionIndex) :
    Affected → Prop
  | .region s => t.Restarts lost origin s
  | .input g => ∃ r, t.Restarts lost origin r ∧ t.Reads r g
  | .output c => ∃ r, t.Restarts lost origin r ∧ ∃ p x,
      t.outputAt p = some x ∧ t.regionOf[x.producer]? = some r ∧
        p ∈ t.partitionsIn c

/-- Following keeps to what may be found. -/
theorem Whole.found_of_dragged {x y : Affected}
    (hx : t.Found (isReadable · = false) origin x)
    (hy : y ∈ t.dragged isReadable x) :
    t.Found (isReadable · = false) origin y := by
  cases x with
  | region r =>
    cases y with
    | region s => exact absurd hy region_not_mem_exchangesOf
    | input g => exact ⟨r, hx, hr.input_mem_exchangesOf.mp hy⟩
    | output c =>
      obtain ⟨i, p, hi, hp, hc⟩ := hr.output_mem_exchangesOf.mp hy
      obtain ⟨id, hid⟩ := exists_taskIdAt
        (hr.size ▸ (Array.getElem?_eq_some_iff.mp hi).1)
      obtain ⟨e, -, hx'⟩ := h.wired.producing.outputAt_of_mem hid hp
      exact ⟨r, hx, p, _, hx', hi, (h.wired.grouped.mem_partitionsIn c p).mpr hc⟩
  | input g =>
    obtain ⟨s, hs, rfl⟩ := List.mem_map.mp hy
    obtain ⟨p, hp, z, hz, hlost, hs⟩ := mem_lostProducers.mp hs
    obtain ⟨r, hr', i, hi, hg⟩ := hx
    exact .producer hr' hi ⟨hg, hp⟩ hz hlost hs
  | output c =>
    obtain ⟨s, hs, rfl⟩ := List.mem_map.mp hy
    obtain ⟨j, hj, hs⟩ := mem_readers.mp hs
    obtain ⟨r, hr', p, z, hz, hproducer, hp⟩ := hx
    exact .consumer hr' hz hproducer
      ⟨(h.wired.grouped.mem_tasksReading c j).mp hj, hp⟩ hs

/-- The search reaches the regions that restart, each through the group in
between. -/
theorem Whole.follows_of_restarts {r : Nat}
    (hrestarts : t.Restarts (isReadable · = false) origin r) :
    r = origin ∨ Search.Follows (t.dragged isReadable) (.region origin)
      (.region r) := by
  have hnext : ∀ {q : Nat} {y z : Affected}, (q = origin ∨
      Search.Follows (t.dragged isReadable) (.region origin) (.region q)) →
      y ∈ t.dragged isReadable (.region q) → z ∈ t.dragged isReadable y →
      Search.Follows (t.dragged isReadable) (.region origin) z := by
    rintro q y z (rfl | hq) hy hz
    · exact .tail (.single hy) hz
    · exact (hq.tail hy).tail hz
  induction hrestarts with
  | failed => exact .inl rfl
  | @producer r s i g p x _ hi hp hx hlost hs ih =>
    exact .inr (hnext ih (hr.input_mem_exchangesOf.mpr ⟨i, hi, hp.1⟩)
      (List.mem_map_of_mem
        (mem_lostProducers.mpr ⟨p, hp.2, x, hx, hlost, hs⟩)))
  | @consumer r s j g p x _ hx hr' hp hs ih =>
    exact .inr (hnext ih (hr.output_mem_exchangesOf.mpr
        ⟨x.producer, p, hr', h.wired.producing.producer p x hx,
          (h.wired.grouped.mem_partitionsIn g p).mp hp.2⟩)
      (List.mem_map_of_mem (mem_readers.mpr
        ⟨j, (h.wired.grouped.mem_tasksReading g j).mpr hp.1, hs⟩)))

/-- The regions found are those that restart. -/
theorem Whole.mem_regionsToRestart (ho : origin < t.regions.size) {r : Nat} :
    r ∈ t.regionsToRestart isReadable origin ↔
      t.Restarts (isReadable · = false) origin r := by
  have hmem : r ∈ t.regionsToRestart isReadable origin ↔
      .region r = Affected.region origin ∨ Search.Follows
        (t.dragged isReadable) (.region origin) (.region r) := by
    rw [← h.mem_explore_dragged hr ho, regionsToRestart, List.mem_filterMap]
    simp only [Std.TreeSet.mem_toList]
    constructor
    · rintro ⟨x, hx, hxr⟩
      cases x <;> simp_all [Affected.region?]
    · intro hx
      exact ⟨_, hx, rfl⟩
  have hstart : t.Found (isReadable · = false) origin (.region origin) :=
    Restarts.failed
  -- What is found along the edges of the search restarts: every edge is one of
  -- the reasons to restart.
  have hfound : ∀ {x : Affected}, Search.Follows (t.dragged isReadable)
      (.region origin) x → t.Found (isReadable · = false) origin x := by
    intro x hx
    induction hx with
    | single hy => exact h.found_of_dragged hr hstart hy
    | tail _ hy ih => exact h.found_of_dragged hr ih hy
  rw [hmem, Affected.region.injEq]
  constructor
  · rintro (rfl | hfollows)
    · exact .failed
    · exact hfound hfollows
  · exact h.follows_of_restarts hr

end Search

/-! ## The tasks that restart -/

theorem Regioned.mem_scheduledIn {t : Topology} (hr : t.Regioned)
    {regions : List RegionIndex} {id : TaskId} :
    id ∈ t.scheduledIn regions ↔ ∃ (i : Nat) (task : Task) (r : RegionIndex),
      t.tasks[i]? = some task ∧ task.id = id ∧ task.state ≠ .created ∧
        t.regionOf[i]? = some r ∧ r ∈ regions := by
  simp only [scheduledIn, mem_ascending, List.mem_map, List.mem_filter,
    List.mem_flatMap, hr.mem_regionTasks, decide_eq_true_eq]
  constructor
  · rintro ⟨task, ⟨⟨r, hregion, i, hi, htask⟩, hstate⟩, hid⟩
    exact ⟨i, task, r, htask, hid, hstate, hi, hregion⟩
  · rintro ⟨i, task, r, htask, hid, hstate, hi, hregion⟩
    exact ⟨task, ⟨⟨r, hregion, i, hi, htask⟩, hstate⟩, hid⟩

end Topology

namespace FailoverStrategy

open ControlPlane.Topology

/-! ## The strategy -/

/-- The states of a region strategy after any calls, for any topologies. -/
inductive Used : FailoverStrategy → Prop where
  | fresh : Used (.start .region)
  | call {s : FailoverStrategy} (h : Used s) (t : Topology)
      (isAvailable : PartitionId → Bool) (failed : TaskId)
      (cause : FailureCause) :
      Used (s.tasksToRestart t isAvailable failed cause).1

theorem restartRegions_fst (t : Topology)
    (isAvailable : PartitionId → Bool) (failed : TaskId)
    (cause : FailureCause) :
    (restartRegions [] t isAvailable failed cause).1 = [] := by
  unfold restartRegions
  split
  · rfl
  · split
    · rfl
    · split
      · rfl
      · simp

/-- Nothing is remembered as lost between two calls. -/
theorem Used.eq_region {s : FailoverStrategy} (h : Used s) :
    s = .region [] := by
  induction h with
  | fresh => rfl
  | call _ t isAvailable failed cause ih =>
    rw [ih]
    exact congrArg FailoverStrategy.region
      (restartRegions_fst t isAvailable failed cause)

theorem isReadable_eq_false {lost : List PartitionId}
    {isAvailable : PartitionId → Bool} {id : PartitionId} :
    isReadable lost isAvailable id = false ↔
      id ∈ lost ∨ isAvailable id = false := by
  simp only [isReadable, Bool.and_eq_false_iff, decide_eq_false_iff_not,
    not_not]

/-- A call with known ids returns the scheduled tasks of the regions that
can be found when the partition of the cause cannot be read. -/
theorem restartRegions_eq {t : Topology} {isAvailable : PartitionId → Bool}
    {failed : TaskId} {cause : FailureCause} {origin : RegionIndex}
    (horigin : t.regionAt failed = .ok origin)
    (hcause : ∀ id, cause.partition? = some id →
      ∃ p, t.partitionAt id = .ok p) :
    restartRegions [] t isAvailable failed cause =
      ([], .ok (t.scheduledIn (t.regionsToRestart
        (isReadable cause.partition?.toList isAvailable) origin))) := by
  unfold restartRegions
  rw [horigin]
  dsimp only
  cases hpartition : cause.partition? with
  | none => rfl
  | some id =>
    obtain ⟨p, hp⟩ := hcause id hpartition
    simp [hp]

/-- A call returns exactly the scheduled tasks of the regions that restart,
whatever calls there were before, and leaves nothing behind. -/
theorem tasksToRestart_eq_restarts {s : FailoverStrategy} (hs : Used s) :
    (∀ t isAvailable failed cause,
      (s.tasksToRestart t isAvailable failed cause).1 = .region []) ∧
    ∀ t : Topology, t.Reachable → ∀ isAvailable failed cause (i : Nat),
      t.taskAt failed = .ok i →
      (∀ id, cause.partition? = some id → ∃ p, t.partitionAt id = .ok p) →
      ∃ origin ids, t.regionOf[i]? = some origin ∧
        (s.tasksToRestart t isAvailable failed cause).2 = .ok ids ∧
        ids.Pairwise (compare · · = .lt) ∧
        ∀ id, id ∈ ids ↔ ∃ (j : Nat) (task : Task) (r : RegionIndex),
          t.tasks[j]? = some task ∧ task.id = id ∧ task.state ≠ .created ∧
            t.regionOf[j]? = some r ∧
            t.Restarts (Unavailable isAvailable cause) origin r := by
  refine ⟨fun t isAvailable failed cause =>
    (hs.call t isAvailable failed cause).eq_region, ?_⟩
  intro t ht isAvailable failed cause i hi hcause
  have hwhole := ht.whole
  have hregioned := ht.regioned
  have hlt := lt_of_taskIdAt (hwhole.wired.indexed.taskAt_eq_ok.mp hi)
  obtain ⟨origin, hget⟩ := hregioned.exists_regionOf hlt
  have horigin : t.regionAt failed = .ok origin := by
    unfold regionAt
    rw [hi]
    simp only [bind, Except.bind, hget]
    rfl
  have hlost : (isReadable cause.partition?.toList isAvailable · = false) =
      Unavailable isAvailable cause := by
    funext id
    rw [isReadable_eq_false, Option.mem_toList, Unavailable]
  rw [hs.eq_region]
  refine ⟨origin, _, hget, congrArg Prod.snd
    (restartRegions_eq horigin hcause), pairwise_ascending _, fun id => ?_⟩
  rw [hregioned.mem_scheduledIn]
  simp only [hwhole.mem_regionsToRestart hregioned (hregioned.lt i origin hget),
    hlost]

/-! ## The small job -/

/-- The small job with all tasks running. -/
def runningSample : Topology :=
  let ids : List TaskId := [⟨sampleSource, 0⟩, ⟨sampleSource, 1⟩,
    ⟨sampleSink, 0⟩, ⟨sampleSink, 1⟩]
  ids.foldl (fun t id => Call.run (Call.run t (.attachAttempt id))
    (.transition id .running)) sample

theorem reachable_runningSample : runningSample.Reachable := by
  apply List.foldlRecOn
  · exact reachable_sample
  · intro t ht id _
    exact (ht.call _).call _

/-- When a sink cannot read what the first source wrote, that source and
both sinks restart, also after a call that failed. -/
theorem tasksToRestart_runningSample :
    ∃ origin, ∀ id, id ∈ [(⟨sampleSource, 0⟩ : TaskId), ⟨sampleSink, 0⟩,
        ⟨sampleSink, 1⟩] ↔ ∃ (j : Nat) (task : Task) (r : RegionIndex),
      runningSample.tasks[j]? = some task ∧ task.id = id ∧
        task.state ≠ .created ∧ runningSample.regionOf[j]? = some r ∧
        runningSample.Restarts (Unavailable (fun _ => true)
          (.partition ⟨⟨⟨3⟩⟩, 0⟩ "lost")) origin r := by
  have hused : Used ((FailoverStrategy.start .region).tasksToRestart sample
      (fun _ => true) ⟨sampleSink, 7⟩ (.task "unknown")).1 :=
    Used.fresh.call _ _ _ _
  obtain ⟨origin, ids, -, hok, -, hmem⟩ :=
    (tasksToRestart_eq_restarts hused).2 runningSample
      reachable_runningSample (fun _ => true) ⟨sampleSink, 0⟩
      (.partition ⟨⟨⟨3⟩⟩, 0⟩ "lost") 2 (by decide +kernel) (by
        intro id hid
        rw [FailureCause.partition?, Option.some.injEq] at hid
        exact ⟨0, hid ▸ by decide +kernel⟩)
  have hids : ids = [⟨sampleSource, 0⟩, ⟨sampleSink, 0⟩, ⟨sampleSink, 1⟩] := by
    rw [hused.eq_region] at hok
    have heval : ((FailoverStrategy.region []).tasksToRestart runningSample
        (fun _ => true) ⟨sampleSink, 0⟩
        (.partition ⟨⟨⟨3⟩⟩, 0⟩ "lost")).2.toOption = some
          [⟨sampleSource, 0⟩, ⟨sampleSink, 0⟩, ⟨sampleSink, 1⟩] := by
      decide +kernel
    rw [hok] at heval
    exact Option.some.inj heval
  exact ⟨origin, hids ▸ hmem⟩

end FailoverStrategy

end ControlPlane
