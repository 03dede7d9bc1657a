import Mathlib
import ControlPlane.Proofs.Release.Reports

/-!
# Calls of the release strategy that fail

A call fails for an id of no task. A report of one task is looked up before
anything is changed. Tasks that join a region are recorded one after the
other, and the groups that the region reads are told of them at the end. So
a call that fails half-way leaves tasks recorded that no group knows of: the
region may be unfinished, and finished for what it reads.
-/

namespace ControlPlane

theorem insertAscending_of_mem {x : Nat} {l : List Nat}
    (hl : l.Pairwise (· < ·)) (hx : x ∈ l) : insertAscending x l = l := by
  induction l with
  | nil => simp at hx
  | cons y ys ih =>
    obtain ⟨hy, hys⟩ := List.pairwise_cons.mp hl
    unfold insertAscending
    split
    · rename_i hlt
      rcases List.mem_cons.mp hx with rfl | hmem
      · simp at hlt
      · have := hy x hmem
        rw [Nat.compare_eq_lt] at hlt
        omega
    · rfl
    · rename_i hgt
      rcases List.mem_cons.mp hx with rfl | hmem
      · simp at hgt
      · rw [ih hys hmem]

namespace Topology

/-- The positions of the tasks in front of the first unknown one. -/
def leading (t : Topology) : List TaskId → List TaskIndex
  | [] => []
  | id :: ids =>
    match t.taskAt id with
    | .ok i => i :: t.leading ids
    | .error _ => []

end Topology

open ControlPlane.Topology

namespace RegionRelease

/-! ## Calls with any ids -/

/-- A call of the release strategy. -/
inductive Notice where
  | finished (id : TaskId)
  | reopened (id : TaskId)
  | added (sibling : TaskId) (ids : List TaskId)

/-- The ids that a call is about. -/
def Notice.ids : Notice → List TaskId
  | finished id => [id]
  | reopened id => [id]
  | added sibling ids => sibling :: ids

/-- The state after a call, and what the call returns. -/
def notice (r : RegionRelease) (t : Topology) :
    Notice → RegionRelease × Except Error (List GroupIndex)
  | .finished id =>
    match r.taskFinished t id with
    | .ok (r', groups) => (r', .ok groups)
    | .error e => (r, .error e)
  | .reopened id =>
    match r.taskReopened t id with
    | .ok r' => (r', .ok [])
    | .error e => (r, .error e)
  | .added sibling ids =>
    ((r.tasksAdded t sibling ids).1,
      (r.tasksAdded t sibling ids).2.map fun _ => [])

/-- The states that any calls lead to, whether they fail or not. The topology
may be another one at every call. -/
inductive Reached : RegionRelease → Prop where
  | start {t : Topology} (ht : t.Reachable) : Reached (ofTopology t)
  | notice {r : RegionRelease} {t : Topology} (h : Reached r)
      (ht : t.Reachable) (n : Notice) : Reached (r.notice t n).1

/-- The unfinished tasks of a region. -/
def listed (r : RegionRelease) (k : RegionIndex) : List TaskIndex :=
  (r.unfinished[k]?).getD []

/-- A task has a region that is followed. -/
structure Locates (r : RegionRelease) (t : Topology) (id : TaskId)
    (i : TaskIndex) (k : RegionIndex) : Prop where
  taskIdAt : t.taskIdAt i = some id
  regionOf : t.regionOf[i]? = some k
  lt : k < r.unfinished.size

/-- A region with an unfinished task is unfinished for what it reads. -/
def Agrees (r : RegionRelease) (t : Topology) : Prop :=
  ∀ k, r.listed k ≠ [] → ∀ g ∈ groupsRead t k, k ∈ (r.view g).unfinished

/-- Tasks are to join a region, the region of the sibling. -/
def Notice.Joins (n : Notice) (r : RegionRelease) (t : Topology)
    (k : RegionIndex) : Prop :=
  ∃ sibling ids i, n = added sibling ids ∧ r.Locates t sibling i k

/-- The tasks that a call has read when it comes to an unknown one. -/
def Notice.leading (n : Notice) (t : Topology) : List TaskIndex :=
  match n with
  | added _ ids => t.leading ids
  | _ => []

section Notice

variable {r : RegionRelease} {t : Topology} {id : TaskId}

/-! ## Finding a region -/

theorem locate_eq_ok_iff (h : t.Indexed) {i k : Nat} :
    r.locate t id = .ok (i, k) ↔ r.Locates t id i k := by
  unfold locate
  constructor
  · intro hok
    obtain ⟨j, hj, hrest⟩ := bind_eq_ok_iff.mp hok
    split at hrest
    · rename_i region hregion
      split at hrest
      · rename_i hlt
        cases hrest
        exact ⟨h.taskAt_eq_ok.mp hj, hregion, hlt⟩
      · cases hrest
    · cases hrest
  · intro hlocates
    rw [h.taskAt_eq_ok.mpr hlocates.taskIdAt]
    simp only [bind, Except.bind, hlocates.regionOf, if_pos hlocates.lt]
    rfl

/-- A task that is not found is reported as unknown. -/
theorem of_locate_eq_error (h : t.Indexed) {e : Error}
    (herror : r.locate t id = .error e) :
    e = .unknownTask id ∧ ∀ i k, ¬ r.Locates t id i k := by
  constructor
  · unfold locate at herror
    rcases bind_eq_error_iff.mp herror with htask | ⟨j, -, hrest⟩
    · exact taskAt_eq_error htask
    · split at hrest
      · split at hrest
        · cases hrest
        · cases hrest
          rfl
      · cases hrest
        rfl
  · intro i k hlocates
    rw [(locate_eq_ok_iff h).mpr hlocates] at herror
    cases herror

/-! ## Tasks of one region -/

/-- The tasks in front of the first unknown one are recorded. -/
theorem fst_reopenTasks (k : Nat) (ids : List TaskId) :
    (reopenTasks t k ids r).1 = (t.leading ids).foldl (·.reopenTask k ·) r := by
  induction ids generalizing r with
  | nil => rfl
  | cons id ids ih =>
    unfold reopenTasks leading
    cases t.taskAt id with
    | error e => rfl
    | ok i => exact ih

theorem snd_reopenTasks {k : Nat} {ids : List TaskId} {e : Error}
    (herror : (reopenTasks t k ids r).2 = .error e) :
    ∃ id ∈ ids, t.taskAt id = .error e := by
  induction ids generalizing r with
  | nil => cases herror
  | cons id ids ih =>
    unfold reopenTasks at herror
    cases htask : t.taskAt id with
    | error e' =>
      rw [htask] at herror
      cases herror
      exact ⟨id, List.mem_cons_self, htask⟩
    | ok i =>
      rw [htask] at herror
      obtain ⟨id', hid', h⟩ := ih herror
      exact ⟨id', List.mem_cons_of_mem _ hid', h⟩

theorem mem_listed_foldl_reopenTask {k m i : Nat} {added : List Nat}
    (hk : k < r.unfinished.size) :
    i ∈ (added.foldl (·.reopenTask k ·) r).listed m ↔
      i ∈ r.listed m ∨ (m = k ∧ i ∈ added) := by
  unfold listed
  have hsize := size_foldl_reopenTask (r := r) k added
  cases hl : (added.foldl (·.reopenTask k ·) r).unfinished[m]? with
  | some l =>
    obtain ⟨l', hl', hmem⟩ := unfinished_foldl_reopenTask hl
    rw [hl', Option.getD_some, Option.getD_some]
    exact hmem i
  | none =>
    rw [Array.getElem?_eq_none_iff, hsize] at hl
    rw [Array.getElem?_eq_none hl]
    have hne : m ≠ k := by omega
    simp [hne]

/-- Tasks that are listed already change nothing. -/
theorem foldl_reopenTask_of_listed (h : r.Ordered) {k : Nat}
    {added : List Nat} (hadded : ∀ i ∈ added, i ∈ r.listed k) :
    added.foldl (·.reopenTask k ·) r = r := by
  induction added with
  | nil => rfl
  | cons i added ih =>
    have hsame : r.reopenTask k i = r := by
      have hunfinished :
          r.unfinished.modify k (insertAscending i) = r.unfinished := by
        apply Array.ext_getElem?
        intro m
        rw [Array.getElem?_modify]
        split
        · rename_i hkm
          subst hkm
          have hi := hadded i List.mem_cons_self
          unfold listed at hi
          cases hl : r.unfinished[k]? with
          | none => rfl
          | some l =>
            rw [hl, Option.getD_some] at hi
            rw [Option.map_some,
              insertAscending_of_mem (h.unfinished k l hl) hi]
        · rfl
      unfold reopenTask
      rw [hunfinished]
    rw [List.foldl_cons, hsame]
    exact ih fun j hj => hadded j (List.mem_cons_of_mem _ hj)

/-! ## What a failing call leaves behind -/

/-- What is left behind by a call that fails. -/
structure Interrupted (r : RegionRelease) (t : Topology) (n : Notice) :
    Prop where
  /-- One of the tasks has no region that is followed. -/
  unknown : ∃ id ∈ n.ids, (r.notice t n).2 = .error (.unknownTask id) ∧
    ∀ i k, ¬ r.Locates t id i k
  /-- No group is told anything. -/
  readers : (r.notice t n).1.readers = r.readers
  /-- The tasks in front of an unknown one are recorded. -/
  listed : ∀ m i, i ∈ (r.notice t n).1.listed m ↔
    i ∈ r.listed m ∨ (n.Joins r t m ∧ i ∈ n.leading t)
  /-- The state is what it was just if these have been recorded before. -/
  unchanged : (r.notice t n).1 = r ↔
    ∀ k, n.Joins r t k → ∀ i ∈ n.leading t, i ∈ r.listed k
  /-- Groups and regions still agree just if there are no such tasks or the
  region has been unfinished for what it reads. -/
  agrees : r.Agrees t → ((r.notice t n).1.Agrees t ↔
    ∀ k, n.Joins r t k → n.leading t ≠ [] →
      ∀ g ∈ groupsRead t k, k ∈ (r.view g).unfinished)

/-- A call that fails before it has changed anything. -/
theorem interrupted_of_eq {n : Notice} {id : TaskId} (hid : id ∈ n.ids)
    (hn : r.notice t n = (r, .error (.unknownTask id)))
    (hlocates : ∀ i k, ¬ r.Locates t id i k) (hjoins : ∀ k, ¬ n.Joins r t k) :
    Interrupted r t n where
  unknown := ⟨id, hid, by rw [hn], hlocates⟩
  readers := by rw [hn]
  listed m i := by simp [hn, hjoins]
  unchanged := by simp [hn, hjoins]
  agrees hagrees := by simp [hn, hjoins, hagrees]

/-- The only region that tasks join is that of the sibling. -/
theorem joins_added_iff (ht : t.Indexed) {sibling : TaskId}
    {ids : List TaskId} {i k m : Nat} (hlocates : r.Locates t sibling i k) :
    (Notice.added sibling ids).Joins r t m ↔ m = k := by
  constructor
  · intro hjoin
    obtain ⟨_, _, j, hn, hj⟩ := hjoin
    cases hn
    have heq := (locate_eq_ok_iff ht).mpr hj
    rw [(locate_eq_ok_iff ht).mpr hlocates] at heq
    cases heq
    rfl
  · intro hm
    exact ⟨sibling, ids, i, rfl, hm ▸ hlocates⟩

/-- Tasks in front of an unknown one have joined the region when the call
fails. -/
theorem notice_added_of_error (ht : t.Indexed) {sibling : TaskId}
    {ids : List TaskId} {i k : Nat} (hlocates : r.Locates t sibling i k)
    {e : Error} (herror : (reopenTasks t k ids r).2 = .error e) :
    r.notice t (.added sibling ids) =
      ((t.leading ids).foldl (·.reopenTask k ·) r, .error e) := by
  have hadded : r.tasksAdded t sibling ids =
      ((reopenTasks t k ids r).1, .error e) := by
    unfold RegionRelease.tasksAdded
    rw [(locate_eq_ok_iff ht).mpr hlocates]
    dsimp only
    split
    · rename_i heq
      rw [heq] at herror ⊢
      cases herror
      rfl
    · rename_i heq
      rw [heq] at herror
      cases herror
  unfold notice
  dsimp only
  rw [hadded, fst_reopenTasks]
  rfl

/-- A call that fails at one of the tasks that are to join a region. -/
theorem interrupted_added (ht : t.Indexed) (hr : r.Ordered)
    {sibling : TaskId} {ids : List TaskId} {i k : Nat}
    (hlocates : r.Locates t sibling i k) {e : Error}
    (herror : (reopenTasks t k ids r).2 = .error e) :
    Interrupted r t (.added sibling ids) := by
  obtain ⟨id, hid, hunknown⟩ := snd_reopenTasks herror
  have hnotice := notice_added_of_error ht hlocates herror
  have hjoins : ∀ m, (Notice.added sibling ids).Joins r t m ↔ m = k :=
    fun _ => joins_added_iff ht hlocates
  -- Before the call failed, the tasks ahead of the unknown one were listed.
  -- The views come after all tasks, so they are as they were.
  have hlisted : ∀ m j, j ∈ ((t.leading ids).foldl (·.reopenTask k ·) r).listed
      m ↔ j ∈ r.listed m ∨ (m = k ∧ j ∈ t.leading ids) :=
    fun _ _ => mem_listed_foldl_reopenTask hlocates.lt
  have hview : ∀ g, ((t.leading ids).foldl (·.reopenTask k ·) r).view g =
      r.view g := by
    intro g
    rw [view, readers_foldl_reopenTask]
    rfl
  refine ⟨⟨id, List.mem_cons_of_mem _ hid, ?_, ?_⟩, ?_, ?_, ?_, ?_⟩
  · rw [hnotice, ← taskAt_eq_error hunknown]
  · intro j m hj
    rw [ht.taskAt_eq_ok.mpr hj.taskIdAt] at hunknown
    cases hunknown
  · rw [hnotice]
    exact readers_foldl_reopenTask k _
  · intro m j
    rw [hnotice, hjoins]
    exact hlisted m j
  · rw [hnotice]
    simp only [hjoins, forall_eq]
    constructor
    · intro hsame j hj
      have hmem := (hlisted k j).mpr (.inr ⟨rfl, hj⟩)
      rwa [hsame] at hmem
    · intro hadded
      exact foldl_reopenTask_of_listed hr hadded
  · intro hagrees
    rw [hnotice]
    simp only [hjoins, forall_eq, Agrees, hview]
    constructor
    · intro hafter hleading
      obtain ⟨j, hj⟩ := List.exists_mem_of_ne_nil _ hleading
      apply hafter k
      exact List.ne_nil_of_mem ((hlisted k j).mpr (.inr ⟨rfl, hj⟩))
    · intro hopen m hm
      obtain ⟨j, hj⟩ := List.exists_mem_of_ne_nil _ hm
      rcases (hlisted m j).mp hj with hold | ⟨rfl, hnew⟩
      · exact hagrees m (List.ne_nil_of_mem hold)
      · exact hopen (List.ne_nil_of_mem hnew)

end Notice

/-! ## Any state -/

/-- Calls keep what is listed in order, whether they fail or not. -/
theorem ordered_notice {r : RegionRelease} {t : Topology} (h : r.Ordered)
    (ht : t.Regioned) (n : Notice) : (r.notice t n).1.Ordered := by
  cases n with
  | finished id =>
    simp only [notice]
    split
    · rename_i hok
      exact (keeps_taskFinished ht hok).ordered h
    · exact h
  | reopened id =>
    simp only [notice]
    split
    · rename_i hok
      exact (keeps_taskReopened ht hok).ordered h
    · exact h
  | added sibling ids => exact (keeps_tasksAdded ht sibling ids).ordered h

theorem Reached.ordered {r : RegionRelease} (h : Reached r) : r.Ordered := by
  induction h with
  | start ht => exact ordered_ofTopology ht.regioned
  | notice _ ht n ih => exact ordered_notice ih ht.regioned n

/-- A failing call leaves the state as it is, unless it has come to new tasks
of a region before it fails. -/
theorem interrupted_of_reached {r : RegionRelease} (h : Reached r)
    {t : Topology} (ht : t.Reachable) {n : Notice} {e : Error}
    (herror : (r.notice t n).2 = .error e) : Interrupted r t n := by
  have hindexed := ht.whole.wired.indexed
  cases n with
  | finished id =>
    cases hfinished : r.taskFinished t id with
    | ok out => simp [notice, hfinished] at herror
    | error e' =>
      have hlocate : r.locate t id = .error e' := by
        rcases bind_eq_error_iff.mp hfinished with hlocate | ⟨_, -, hrest⟩
        · exact hlocate
        · dsimp only at hrest
          split at hrest <;> cases hrest
      obtain ⟨rfl, hnone⟩ := of_locate_eq_error hindexed hlocate
      exact interrupted_of_eq List.mem_cons_self (by simp [notice, hfinished])
        hnone (by simp [Notice.Joins])
  | reopened id =>
    cases hreopened : r.taskReopened t id with
    | ok r' => simp [notice, hreopened] at herror
    | error e' =>
      have hlocate : r.locate t id = .error e' := by
        rcases bind_eq_error_iff.mp hreopened with hlocate | ⟨_, -, hrest⟩
        · exact hlocate
        · cases hrest
      obtain ⟨rfl, hnone⟩ := of_locate_eq_error hindexed hlocate
      exact interrupted_of_eq List.mem_cons_self (by simp [notice, hreopened])
        hnone (by simp [Notice.Joins])
  | added sibling ids =>
    cases hlocate : r.locate t sibling with
    | error e' =>
      obtain ⟨rfl, hnone⟩ := of_locate_eq_error hindexed hlocate
      refine interrupted_of_eq List.mem_cons_self ?_ hnone ?_
      · simp [notice, RegionRelease.tasksAdded, hlocate, Except.map]
      · intro k hjoin
        obtain ⟨_, _, j, hn, hj⟩ := hjoin
        cases hn
        exact hnone j k hj
    | ok out =>
      -- Only a call that knows the sibling gets to change anything.
      obtain ⟨i, k⟩ := out
      refine interrupted_added hindexed h.ordered
        ((locate_eq_ok_iff hindexed).mp hlocate) (e := e) ?_
      simp only [notice, RegionRelease.tasksAdded, hlocate] at herror
      cases htasks : reopenTasks t k ids r with
      | mk r' result =>
        rw [htasks] at herror
        cases result with
        | error e' =>
          cases herror
          rfl
        | ok _ => cases herror

/-! ## A small job -/

/-- The small job with a third sink, in the region of the first one. -/
def widened : Topology := Call.run sample (.extendRegion ⟨sampleSink, 0⟩ 1)

theorem reachable_widened : widened.Reachable := reachable_sample.call _

/-- Both sinks have finished before there is a third one. -/
def sinksFinished : RegionRelease :=
  let first := ((ofTopology sample).notice sample
    (.finished ⟨sampleSink, 0⟩)).1
  (first.notice sample (.finished ⟨sampleSink, 1⟩)).1

theorem reached_sinksFinished : Reached sinksFinished :=
  ((Reached.start reachable_sample).notice reachable_sample _).notice
    reachable_sample _

/-- The third sink is reported with one that does not exist. -/
def joining : Notice :=
  .added ⟨sampleSink, 0⟩ [⟨sampleSink, 2⟩, ⟨sampleSink, 7⟩]

theorem snd_notice_joining : (sinksFinished.notice widened joining).2 =
    .error (.unknownTask ⟨sampleSink, 7⟩) := by
  decide +kernel

theorem interrupted_joining :
    (sinksFinished.notice widened joining).2 =
      .error (.unknownTask ⟨sampleSink, 7⟩) ∧
    Interrupted sinksFinished widened joining :=
  ⟨snd_notice_joining, interrupted_of_reached reached_sinksFinished
    reachable_widened snd_notice_joining⟩

/-- The third sink stays recorded in the region of the first one, while the
group that the sinks read takes the region to be finished. The group is not
found again when the first sink is. -/
theorem torn_joining : Reached sinksFinished ∧ widened.Reachable ∧
    (sinksFinished.notice widened joining).2 =
      .error (.unknownTask ⟨sampleSink, 7⟩) ∧
    (sinksFinished.notice widened (.finished ⟨sampleSink, 0⟩)).2 = .ok [0] ∧
    ((sinksFinished.notice widened joining).1.notice widened
      (.finished ⟨sampleSink, 0⟩)).2 = .ok [] ∧
    (sinksFinished.notice widened joining).1 ≠ sinksFinished ∧
    ¬ (sinksFinished.notice widened joining).1.Agrees widened := by
  refine ⟨reached_sinksFinished, reachable_widened, by decide +kernel,
    by decide +kernel, by decide +kernel, ?_, ?_⟩
  · intro hsame
    have hlisted : (sinksFinished.notice widened joining).1.listed 2 =
        sinksFinished.listed 2 := by rw [hsame]
    revert hlisted
    decide +kernel
  · intro hagrees
    have hopen := hagrees 2 (by decide +kernel) 0 (by decide +kernel)
    revert hopen
    decide +kernel

end RegionRelease

end ControlPlane
