import Mathlib
import ControlPlane.Proofs.Job.Coupling
import ControlPlane.Proofs.Release.Ordered

/-!
# Release depends on what has finished, not on how

Tasks are reported to the release strategy as finished or as running again,
in any order and any number of times, while the topology grows. What the
strategy remembers is a function of the topology and of the tasks last
reported as finished. It never looks at attempts, so it cannot tell the
topology from one in which just these tasks have finished; there it follows
the tasks.
-/

namespace ControlPlane

namespace Topology

/-- There is a task with the id. -/
def HasTask (t : Topology) (id : TaskId) : Prop :=
  ∃ i, t.taskIdAt i = some id

theorem HasTask.sameStaff {t t' : Topology} {id : TaskId} (h : t.HasTask id)
    (hstaff : SameStaff t t') : t'.HasTask id :=
  h.imp fun i hi => (hstaff.taskIdAt i).trans hi

theorem HasTask.extended {t t' : Topology} {id : TaskId} (h : t.HasTask id)
    {o : Operator} {i n : Nat} (hext : Extended t o i n t') :
    t'.HasTask id := by
  obtain ⟨j, hj⟩ := h
  refine ⟨j, ?_⟩
  rw [hext.taskIdAt, if_pos (lt_of_taskIdAt hj)]
  exact hj

/-- Tasks are never removed. -/
theorem HasTask.run {t : Topology} {id : TaskId} (h : t.HasTask id)
    (ht : t.Whole) (c : Call) : (c.run t).HasTask id := by
  rcases ht.call_cases c with heq | ⟨i, a, -, ha⟩ | ⟨o, i, n, -, -, hext⟩
  · rwa [heq]
  · exact h.sameStaff ha.staff
  · exact h.extended hext

theorem HasTask.runAll {t : Topology} {id : TaskId} (h : t.HasTask id)
    (ht : t.Reachable) (calls : List Call) : (t.runAll calls).HasTask id := by
  induction calls generalizing t with
  | nil => exact h
  | cons c calls ih => exact ih (h.run ht.whole c) (ht.call c)

/-- A task of a region that is not among the finished ones. -/
def Outside (t : Topology) (finished : Set TaskId) (r : RegionIndex)
    (i : TaskIndex) : Prop :=
  t.regionOf[i]? = some r ∧ ∃ id ∉ finished, t.taskIdAt i = some id

/-- All tasks of a region are among the finished ones. -/
def Within (t : Topology) (finished : Set TaskId) (r : RegionIndex) : Prop :=
  ∀ i, ¬ t.Outside finished r i

open Classical in
/-- The topology in which just the given tasks have finished. -/
noncomputable def withFinished (t : Topology) (finished : Set TaskId) :
    Topology :=
  { t with
    tasks := t.tasks.map fun task =>
      { task with
        attempt := if task.id ∈ finished then some ⟨0, .finished⟩ else none } }

section WithFinished

variable {t t' : Topology} {finished finished' : Set TaskId}

theorem consumedBy_withFinished :
    (t.withFinished finished).consumedBy = t.consumedBy := by
  funext i
  simp only [consumedBy, withFinished, Array.getElem?_map, Option.map_map]
  rfl

theorem isFinished_withFinished {i : Nat} :
    (t.withFinished finished).IsFinished i ↔
      ∃ id ∈ finished, t.taskIdAt i = some id := by
  unfold IsFinished withFinished taskIdAt
  simp only [Array.getElem?_map]
  cases t.tasks[i]? with
  | none => simp
  | some task => by_cases hid : task.id ∈ finished <;> simp [Task.state, hid]

theorem readsBlocking_withFinished {r g : Nat} :
    (t.withFinished finished).ReadsBlocking r g ↔ t.ReadsBlocking r g := by
  rw [ReadsBlocking, ReadsBlocking, Reads, Reads, consumedBy_withFinished]
  rfl

theorem Regioned.withFinished (h : t.Regioned) :
    (t.withFinished finished).Regioned :=
  h.congr (by simp [Topology.withFinished]) rfl rfl consumedBy_withFinished rfl

theorem SameReaders.withFinished (h : SameReaders t t') :
    SameReaders (t.withFinished finished) (t'.withFinished finished') where
  size := h.size
  reads r g := by
    rw [readsBlocking_withFinished, readsBlocking_withFinished]
    exact h.reads r g

theorem Regioned.waiting_withFinished (h : t.Regioned) {r i : Nat} :
    (t.withFinished finished).Waiting r i ↔ t.Outside finished r i := by
  rw [Waiting, isFinished_withFinished]
  refine and_congr_right fun hr => ?_
  have hlt := (Array.getElem?_eq_some_iff.mp hr).1
  rw [show (t.withFinished finished).regionOf = t.regionOf from rfl,
    h.size] at hlt
  obtain ⟨id, hid⟩ := exists_taskIdAt hlt
  simp [hid]

theorem Indexed.outside_insert (h : t.Indexed) {id : TaskId} {i m j : Nat}
    (hi : t.taskIdAt i = some id) :
    t.Outside (insert id finished) m j ↔ t.Outside finished m j ∧ j ≠ i := by
  constructor
  · rintro ⟨hr, id', hnot, hj⟩
    rw [Set.mem_insert_iff, not_or] at hnot
    refine ⟨⟨hr, id', hnot.2, hj⟩, fun hji => hnot.1 ?_⟩
    rw [hji, hi, Option.some.injEq] at hj
    exact hj.symm
  · rintro ⟨⟨hr, id', hnot, hj⟩, hji⟩
    refine ⟨hr, id', fun hmem => ?_, hj⟩
    rcases Set.mem_insert_iff.mp hmem with rfl | hmem
    · exact hji (h.taskId_inj hj hi)
    · exact hnot hmem

theorem Indexed.outside_diff (h : t.Indexed) {id : TaskId} {i k m j : Nat}
    (hi : t.taskIdAt i = some id) (hk : t.regionOf[i]? = some k) :
    t.Outside (finished \ {id}) m j ↔
      t.Outside finished m j ∨ (m = k ∧ j = i) := by
  constructor
  · rintro ⟨hr, id', hnot, hj⟩
    by_cases hid : id' = id
    · obtain rfl := h.taskId_inj (hid ▸ hj) hi
      exact .inr ⟨Option.some.inj (hr.symm.trans hk), rfl⟩
    · exact .inl ⟨hr, id', fun hmem => hnot ⟨hmem, hid⟩, hj⟩
  · rintro (⟨hr, id', hnot, hj⟩ | ⟨rfl, rfl⟩)
    · exact ⟨hr, id', fun hmem => hnot hmem.1, hj⟩
    · exact ⟨hk, id, fun hmem => hmem.2 rfl, hi⟩

end WithFinished

/-- The added tasks have not finished, if all that have existed before. -/
theorem Extended.outside_iff {t t' : Topology} {o : Operator}
    {sibling n r : Nat} (hext : Extended t o sibling n t') (h : t.Regioned)
    (hr : t.regionOf[sibling]? = some r) {finished : Set TaskId}
    (hfinished : ∀ id ∈ finished, t.HasTask id) {m j : Nat} :
    t'.Outside finished m j ↔ t.Outside finished m j ∨
      (m = r ∧ j ∈ (List.range n).map (t.tasks.size + ·)) := by
  have hold : ∀ i < t.tasks.size, (∃ id ∉ finished, t'.taskIdAt i = some id) ↔
      ∃ id ∉ finished, t.taskIdAt i = some id := by
    intro i hi
    rw [hext.taskIdAt, if_pos hi]
  have hnew : ∀ i, t.tasks.size ≤ i → i < t.tasks.size + n →
      ∃ id ∉ finished, t'.taskIdAt i = some id := by
    intro i hi hn
    obtain ⟨id, hid⟩ := exists_taskIdAt (hext.size ▸ hn)
    -- A finished task has an old position, and ids are not given twice.
    refine ⟨id, fun hmem => ?_, hid⟩
    obtain ⟨k, hk⟩ := hfinished id hmem
    have hlt := lt_of_taskIdAt hk
    have hk' : t'.taskIdAt k = some id := by
      rw [hext.taskIdAt, if_pos hlt, hk]
    have heq := hext.whole.wired.indexed.taskId_inj hk' hid
    omega
  exact hext.member_iff h hr hold hnew

end Topology

open ControlPlane.Topology

namespace RegionRelease

/-! ## What is shown of the finished tasks -/

/-- The release state says of every region which of its tasks have not
finished, and of every blocking group that is read by which regions it is
read, and which of these have not finished. -/
structure Shows (r : RegionRelease) (t : Topology) (finished : Set TaskId) :
    Prop where
  size : r.unfinished.size = t.regions.size
  unfinished : ∀ (k : Nat) l, r.unfinished[k]? = some l →
    l.Pairwise (· < ·) ∧ ∀ i, i ∈ l ↔ t.Outside finished k i
  mem_readers : ∀ g, g ∈ r.readers ↔ ∃ k, t.ReadsBlocking k g
  regions : ∀ g v, r.readers[g]? = some v →
    v.regions.Pairwise (· < ·) ∧ ∀ k, k ∈ v.regions ↔ t.ReadsBlocking k g
  unfinishedRegions : ∀ g v, r.readers[g]? = some v →
    v.unfinished.Pairwise (· < ·) ∧
      ∀ k, k ∈ v.unfinished ↔ t.ReadsBlocking k g ∧ ¬ t.Within finished k

/-- Two states with the same entries. -/
structure Same (r r' : RegionRelease) : Prop where
  unfinished : r.unfinished = r'.unfinished
  readers : ∀ g : GroupIndex, r.readers[g]? = r'.readers[g]?

section Shows

variable {r r' : RegionRelease} {t : Topology} {finished : Set TaskId}

theorem Shows.getElem?_readers (h : r.Shows t finished)
    (h' : r'.Shows t finished) {g : GroupIndex} {v : ReaderView}
    (hv : r.readers[g]? = some v) : r'.readers[g]? = some v := by
  have hmem : g ∈ r.readers :=
    Std.TreeMap.mem_iff_isSome_getElem?.mpr (by simp [hv])
  rw [h.mem_readers, ← h'.mem_readers, Std.TreeMap.mem_iff_isSome_getElem?,
    Option.isSome_iff_exists] at hmem
  obtain ⟨v', hv'⟩ := hmem
  obtain ⟨hsorted, hregions⟩ := h.regions g v hv
  obtain ⟨hsorted', hregions'⟩ := h'.regions g v' hv'
  obtain ⟨hopen, hunfinished⟩ := h.unfinishedRegions g v hv
  obtain ⟨hopen', hunfinished'⟩ := h'.unfinishedRegions g v' hv'
  -- Both lists of a view are ascending, so their members determine them.
  have hview : v'.regions = v.regions := hsorted'.eq_of_mem_iff hsorted
    fun k => (hregions' k).trans (hregions k).symm
  have hview' : v'.unfinished = v.unfinished := hopen'.eq_of_mem_iff hopen
    fun k => (hunfinished' k).trans (hunfinished k).symm
  cases v
  cases v'
  cases hview
  cases hview'
  exact hv'

/-- The finished tasks leave no choice of a state. -/
theorem Shows.same (h : r.Shows t finished) (h' : r'.Shows t finished) :
    r.Same r' where
  unfinished := by
    apply Array.ext_getElem?
    intro k
    by_cases hk : k < t.regions.size
    · have hl := Array.getElem?_eq_getElem (h.size ▸ hk)
      have hl' := Array.getElem?_eq_getElem (h'.size ▸ hk)
      obtain ⟨hsorted, hmem⟩ := h.unfinished k _ hl
      obtain ⟨hsorted', hmem'⟩ := h'.unfinished k _ hl'
      rw [hl, hl', hsorted.eq_of_mem_iff hsorted' fun i =>
        (hmem i).trans (hmem' i).symm]
    · rw [Array.getElem?_eq_none (h.size ▸ Nat.not_lt.mp hk),
        Array.getElem?_eq_none (h'.size ▸ Nat.not_lt.mp hk)]
  readers _ := Option.ext fun _ => ⟨h.getElem?_readers h', h'.getElem?_readers h⟩

end Shows

/-! ## Reports -/

/-- A call that the release strategy is told of: a task has finished, a task
runs again, or an operator has grown beside one of its tasks. -/
inductive Report where
  | finished (id : TaskId)
  | reopened (id : TaskId)
  | extended (sibling : TaskId) (additional : Nat)

/-- A topology with the release state that watches it. -/
structure Watch where
  topology : Topology
  release : RegionRelease

namespace Watch

/-- The start of a watch over a topology of which no task has finished. -/
def start (t : Topology) : Watch := ⟨t, ofTopology t⟩

/-- The watch after a report, also if that fails. New tasks are reported if
there are any. -/
def hear (w : Watch) : Report → Watch
  | .finished id =>
    match w.release.taskFinished w.topology id with
    | .ok (r, _) => { w with release := r }
    | .error _ => w
  | .reopened id =>
    match w.release.taskReopened w.topology id with
    | .ok r => { w with release := r }
    | .error _ => w
  | .extended sibling additional =>
    match w.topology.extendRegion sibling additional with
    | (t, .ok ids) => ⟨t, (w.release.tasksAdded t sibling ids).1⟩
    | (t, .error _) => { w with topology := t }

/-- The watch after some reports. -/
def hearAll (w : Watch) (reports : List Report) : Watch :=
  reports.foldl hear w

end Watch

/-- The tasks of which the last report was that they have finished. Reports
of tasks that do not exist do not count. -/
def finishedLast (t : Topology) (reports : List Report) : Set TaskId :=
  {id | ∃ pre post, reports = pre ++ .finished id :: post ∧
    .reopened id ∉ post ∧ ((Watch.start t).hearAll pre).topology.HasTask id}

/-- The finished tasks after one more report. -/
def Report.mark (t : Topology) (finished : Set TaskId) (x : Report) :
    Set TaskId :=
  {id | (x = .finished id ∧ t.HasTask id) ∨
    (id ∈ finished ∧ x ≠ .reopened id)}

section Mark

variable {t : Topology} {finished : Set TaskId} {id : TaskId}

theorem mem_mark {x : Report} : id ∈ x.mark t finished ↔
    (x = .finished id ∧ t.HasTask id) ∨
      (id ∈ finished ∧ x ≠ .reopened id) := Iff.rfl

theorem mark_finished (hid : t.HasTask id) :
    (Report.finished id).mark t finished = insert id finished := by
  ext x
  rw [mem_mark, Set.mem_insert_iff, Report.finished.injEq]
  constructor
  · rintro (⟨rfl, -⟩ | ⟨hx, -⟩)
    · exact .inl rfl
    · exact .inr hx
  · rintro (rfl | hx)
    · exact .inl ⟨rfl, hid⟩
    · exact .inr ⟨hx, by simp⟩

theorem mark_finished_of_not (hid : ¬ t.HasTask id) :
    (Report.finished id).mark t finished = finished := by
  ext x
  rw [mem_mark, Report.finished.injEq]
  constructor
  · rintro (⟨rfl, hx⟩ | ⟨hx, -⟩)
    · exact absurd hx hid
    · exact hx
  · exact fun hx => .inr ⟨hx, by simp⟩

theorem mark_reopened :
    (Report.reopened id).mark t finished = finished \ {id} := by
  ext x
  rw [mem_mark]
  simp [eq_comm]

theorem mark_extended (sibling : TaskId) (additional : Nat) :
    (Report.extended sibling additional).mark t finished = finished := by
  ext x
  rw [mem_mark]
  simp

end Mark

theorem mark_mark (t : Topology) (finished : Set TaskId) (x : Report) :
    x.mark t (x.mark t finished) = x.mark t finished := by
  ext id
  simp only [mem_mark]
  tauto

theorem finishedLast_nil (t : Topology) : finishedLast t [] = ∅ := by
  ext id
  simp [finishedLast]

theorem finishedLast_snoc (t : Topology) (reports : List Report)
    (x : Report) : finishedLast t (reports ++ [x]) =
      x.mark ((Watch.start t).hearAll reports).topology
        (finishedLast t reports) := by
  ext id
  constructor
  · rintro ⟨pre, post, heq, hpost, hknown⟩
    -- The report that counts is the new one, or is among those before it.
    rcases List.eq_nil_or_concat' post with rfl | ⟨post, y, rfl⟩
    · obtain ⟨rfl, hx⟩ := List.append_inj' heq rfl
      exact .inl ⟨(List.cons.inj hx).1, hknown⟩
    · rw [← List.cons_append, ← List.append_assoc] at heq
      obtain ⟨rfl, hx⟩ := List.append_inj' heq rfl
      obtain ⟨rfl, -⟩ := List.cons.inj hx
      refine .inr ⟨⟨pre, post, rfl, fun hmem => hpost (by simp [hmem]), hknown⟩,
        fun hx => hpost (by simp [hx])⟩
  · rintro (⟨rfl, hknown⟩ | ⟨⟨pre, post, rfl, hpost, hknown⟩, hx⟩)
    · exact ⟨reports, [], rfl, by simp, hknown⟩
    · exact ⟨pre, post ++ [x], by simp, by simp [hpost, hx.symm], hknown⟩

/-! ## What every report keeps -/

section Blind

variable (r : RegionRelease) (t : Topology) (finished : Set TaskId)

theorem taskFinished_withFinished (id : TaskId) :
    r.taskFinished (t.withFinished finished) id = r.taskFinished t id := rfl

theorem taskReopened_withFinished (id : TaskId) :
    r.taskReopened (t.withFinished finished) id = r.taskReopened t id := rfl

theorem tasksAdded_withFinished (sibling : TaskId) (ids : List TaskId) :
    r.tasksAdded (t.withFinished finished) sibling ids =
      r.tasksAdded t sibling ids := by
  have hreopen : ∀ (k : RegionIndex) (r : RegionRelease),
      reopenTasks (t.withFinished finished) k ids r =
        reopenTasks t k ids r := by
    intro k
    induction ids with
    | nil => exact fun _ => rfl
    | cons id ids ih =>
      intro r
      unfold reopenTasks
      rw [show (t.withFinished finished).taskAt id = t.taskAt id from rfl]
      split
      · rfl
      · exact ih _
  unfold tasksAdded
  simp only [hreopen]
  rfl

end Blind

/-- The release state cannot tell the topology from one in which just the
given tasks have finished. -/
structure Watch.Exact (w : Watch) (finished : Set TaskId) : Prop where
  reachable : w.topology.Reachable
  hasTask : ∀ id ∈ finished, w.topology.HasTask id
  follows : w.release.Follows (w.topology.withFinished finished)
  ordered : w.release.Ordered
  mem_readers : ∀ g, g ∈ w.release.readers ↔ ∃ k, w.topology.ReadsBlocking k g

theorem exact_start {t : Topology} (h : t.Reachable) :
    (Watch.start t).Exact ∅ where
  reachable := h
  hasTask := by simp
  follows := by
    have hfresh : ∀ i, ¬ (t.withFinished ∅).IsFinished i := by
      simp [isFinished_withFinished]
    exact follows_ofTopology h.regioned.withFinished hfresh
  ordered := ordered_ofTopology h.regioned
  mem_readers := mem_readers_ofTopology h.regioned

section Exact

variable {w : Watch} {finished : Set TaskId}

theorem Watch.Exact.shows (h : w.Exact finished) :
    w.release.Shows w.topology finished where
  size := h.follows.size
  unfinished k l hl := ⟨h.ordered.unfinished k l hl, fun i =>
    (h.follows.mem_unfinished k l hl i).trans
      h.reachable.regioned.waiting_withFinished⟩
  mem_readers := h.mem_readers
  regions g v hv := by
    rw [← view_of_getElem? hv]
    refine ⟨(h.ordered.view g).regions, fun k => ?_⟩
    rw [h.follows.mem_regions, readsBlocking_withFinished]
  unfinishedRegions g v hv := by
    rw [← view_of_getElem? hv]
    refine ⟨(h.ordered.view g).unfinished, fun k => ?_⟩
    rw [h.follows.mem_open, readsBlocking_withFinished, Within]
    simp only [h.reachable.regioned.waiting_withFinished, not_forall, not_not]

/-- A step that keeps the topology. -/
theorem Watch.Exact.update (h : w.Exact finished) {r : RegionRelease}
    {finished' : Set TaskId} (hkeeps : w.release.Keeps r)
    (hknown : ∀ id ∈ finished', w.topology.HasTask id)
    (hfollows : r.Follows (w.topology.withFinished finished')) :
    ({ w with release := r } : Watch).Exact finished' where
  reachable := h.reachable
  hasTask := hknown
  follows := hfollows
  ordered := hkeeps.ordered h.ordered
  mem_readers g := (hkeeps.mem_readers g).trans (h.mem_readers g)

/-- The groups that come free when a task finishes: those that its region
reads, once that and all other regions that read them have finished. -/
def Freed (t : Topology) (finished : Set TaskId) (id : TaskId)
    (g : GroupIndex) : Prop :=
  ∃ i k, t.taskIdAt i = some id ∧ t.regionOf[i]? = some k ∧
    t.Within finished k ∧ t.ReadsBlocking k g ∧
    ∀ m, t.ReadsBlocking m g → t.Within finished m

theorem Watch.Exact.taskFinished (h : w.Exact finished) {id : TaskId}
    (hid : w.topology.HasTask id) :
    ∃ r groups, w.release.taskFinished w.topology id = .ok (r, groups) ∧
      ({ w with release := r } : Watch).Exact (insert id finished) ∧
      groups.Nodup ∧
      ∀ g, g ∈ groups ↔ Freed w.topology (insert id finished) id g := by
  obtain ⟨i, hi⟩ := hid
  have hr := h.reachable.regioned
  have hindexed := h.reachable.whole.wired.indexed
  obtain ⟨k, hk⟩ := hr.exists_regionOf (lt_of_taskIdAt hi)
  have hsame : SameReaders (w.topology.withFinished finished)
      (w.topology.withFinished (insert id finished)) :=
    (SameReaders.refl w.topology).withFinished
  obtain ⟨r, groups, hok, hfollows, hnodup, hmem⟩ := h.follows.taskFinished
    hsame hr.withFinished (hindexed.taskAt_eq_ok.mpr hi) hk hk fun m j => by
      rw [hr.waiting_withFinished, hr.waiting_withFinished,
        hindexed.outside_insert hi]
  rw [taskFinished_withFinished] at hok
  refine ⟨r, groups, hok, h.update (keeps_taskFinished hr hok) ?_ hfollows,
    hnodup, fun g => ?_⟩
  · intro id' hid'
    rcases Set.mem_insert_iff.mp hid' with rfl | hid'
    · exact ⟨i, hi⟩
    · exact h.hasTask id' hid'
  · rw [hmem]
    simp only [readsBlocking_withFinished, hr.waiting_withFinished]
    constructor
    · exact fun ⟨hread, hwithin⟩ =>
        ⟨i, k, hi, hk, hwithin k hread, hread, hwithin⟩
    · rintro ⟨i', k', hi', hk', -, hread, hwithin⟩
      obtain rfl := hindexed.taskId_inj hi' hi
      rw [hk, Option.some.injEq] at hk'
      exact ⟨hk' ▸ hread, hwithin⟩

theorem Watch.Exact.taskReopened (h : w.Exact finished) {id : TaskId}
    (hid : w.topology.HasTask id) :
    ∃ r, w.release.taskReopened w.topology id = .ok r ∧
      ({ w with release := r } : Watch).Exact (finished \ {id}) := by
  obtain ⟨i, hi⟩ := hid
  have hr := h.reachable.regioned
  have hindexed := h.reachable.whole.wired.indexed
  obtain ⟨k, hk⟩ := hr.exists_regionOf (lt_of_taskIdAt hi)
  have hsame : SameReaders (w.topology.withFinished finished)
      (w.topology.withFinished (finished \ {id})) :=
    (SameReaders.refl w.topology).withFinished
  obtain ⟨r, hok, hfollows⟩ := h.follows.taskReopened hsame hr.withFinished
    (hindexed.taskAt_eq_ok.mpr hi) hk fun m j => by
      rw [hr.waiting_withFinished, hr.waiting_withFinished,
        hindexed.outside_diff hi hk]
  rw [taskReopened_withFinished] at hok
  exact ⟨r, hok, h.update (keeps_taskReopened hr hok)
    (fun id' hid' => h.hasTask id' hid'.1) hfollows⟩

/-- Reports of unknown tasks fail. -/
theorem locate_eq_error {r : RegionRelease} {t : Topology} (h : t.Indexed)
    {id : TaskId} (hid : ¬ t.HasTask id) :
    r.locate t id = .error (.unknownTask id) := by
  have hnone : t.taskAt id = .error (.unknownTask id) := by
    cases hat : t.taskAt id with
    | ok i => exact absurd ⟨i, h.taskAt_eq_ok.mp hat⟩ hid
    | error e =>
      unfold taskAt at hat
      split at hat <;> cases hat
      rfl
  unfold locate
  rw [hnone]
  rfl

theorem taskFinished_eq_error {r : RegionRelease} {t : Topology}
    (h : t.Indexed) {id : TaskId} (hid : ¬ t.HasTask id) :
    r.taskFinished t id = .error (.unknownTask id) := by
  unfold taskFinished
  rw [locate_eq_error h hid]
  rfl

theorem taskReopened_eq_error {r : RegionRelease} {t : Topology}
    (h : t.Indexed) {id : TaskId} (hid : ¬ t.HasTask id) :
    r.taskReopened t id = .error (.unknownTask id) := by
  unfold taskReopened
  rw [locate_eq_error h hid]
  rfl

/-- Tasks that join the region of a sibling have not finished. -/
theorem Watch.Exact.tasksAdded (h : w.Exact finished) {t : Topology}
    (ht : t.Reachable) {o : Operator} {sibling : TaskId} {i n : Nat}
    (hi : w.topology.taskIdAt i = some sibling)
    (hext : Extended w.topology o i n t) :
    ∃ r, w.release.tasksAdded t sibling ((List.range n).map fun k =>
        ⟨o.id, o.parallelism + k⟩) = (r, .ok ()) ∧
      (⟨t, r⟩ : Watch).Exact finished := by
  have hr := h.reachable.regioned
  obtain ⟨k, hk⟩ := hr.exists_regionOf (lt_of_taskIdAt hi)
  have hsame : SameReaders (w.topology.withFinished finished)
      (t.withFinished finished) :=
    (hext.sameReaders hr hk).withFinished
  have hids := JobState.taskAt_added hext
  obtain ⟨r, hadded, hfollows⟩ := h.follows.tasksAdded hsame
    ht.regioned.withFinished (hext.taskAt_of_taskIdAt hi)
    ((hext.steady hr hk).regionOf i k hk) hids fun m j => by
      rw [ht.regioned.waiting_withFinished, hr.waiting_withFinished,
        hext.outside_iff hr hk h.hasTask]
  have hkeeps := keeps_tasksAdded (r := w.release) ht.regioned sibling
    ((List.range n).map fun k => ⟨o.id, o.parallelism + k⟩)
  rw [tasksAdded_withFinished] at hadded
  rw [hadded] at hkeeps
  refine ⟨r, hadded, ht, fun id hmem => ?_, hfollows,
    hkeeps.ordered h.ordered, fun g => ?_⟩
  · obtain ⟨j, hj⟩ := h.hasTask id hmem
    exact ⟨j, by rw [hext.taskIdAt, if_pos (lt_of_taskIdAt hj), hj]⟩
  · refine (hkeeps.mem_readers g).trans ((h.mem_readers g).trans ?_)
    exact exists_congr fun m => ((hext.sameReaders hr hk).reads m g).symm

theorem Watch.Exact.tasksAdded_nil (h : w.Exact finished) {id : TaskId}
    (hid : w.topology.HasTask id) :
    w.release.tasksAdded w.topology id [] = (w.release, .ok ()) := by
  obtain ⟨i, hi⟩ := hid
  have hr := h.reachable.regioned
  obtain ⟨k, hk⟩ := hr.exists_regionOf (lt_of_taskIdAt hi)
  have hadded := h.follows.tasksAdded_nil hr.withFinished
    (h.reachable.whole.wired.indexed.taskAt_eq_ok.mpr hi) hk
  rwa [tasksAdded_withFinished] at hadded

theorem Watch.Exact.extended (h : w.Exact finished) (sibling : TaskId)
    (additional : Nat) :
    (w.hear (.extended sibling additional)).Exact finished := by
  unfold Watch.hear
  dsimp only
  rcases h.reachable.extendRegion_cases sibling additional with ⟨e, hextend⟩ |
    ⟨hid, hextend⟩ | ⟨o, i, t, hi, hreachable, hext, hextend⟩
  · rw [hextend]
    exact h
  · rw [hextend]
    dsimp only
    rw [h.tasksAdded_nil hid]
    exact h
  · obtain ⟨r, hadded, hexact⟩ := h.tasksAdded hreachable hi hext
    rw [hextend]
    dsimp only
    rw [hadded]
    exact hexact

theorem Watch.Exact.hear (h : w.Exact finished) (x : Report) :
    (w.hear x).Exact (x.mark w.topology finished) := by
  have hindexed := h.reachable.whole.wired.indexed
  cases x with
  | finished id =>
    dsimp only [Watch.hear]
    by_cases hid : w.topology.HasTask id
    · obtain ⟨r, groups, hok, hexact, -⟩ := h.taskFinished hid
      rw [hok, mark_finished hid]
      exact hexact
    · rw [taskFinished_eq_error hindexed hid, mark_finished_of_not hid]
      exact h
  | reopened id =>
    dsimp only [Watch.hear]
    rw [mark_reopened]
    by_cases hid : w.topology.HasTask id
    · obtain ⟨r, hok, hexact⟩ := h.taskReopened hid
      rw [hok]
      exact hexact
    · -- There is nothing to take out: what does not exist has not finished.
      have hnot : id ∉ finished := fun hmem => hid (h.hasTask id hmem)
      rw [taskReopened_eq_error hindexed hid, Set.sdiff_singleton_eq_self hnot]
      exact h
  | extended sibling additional =>
    rw [mark_extended]
    exact h.extended sibling additional

end Exact

/-! ## Runs -/

theorem Watch.hearAll_snoc (w : Watch) (reports : List Report) (x : Report) :
    w.hearAll (reports ++ [x]) = (w.hearAll reports).hear x := by
  simp [Watch.hearAll]

theorem exact_hearAll {t : Topology} (h : t.Reachable)
    (reports : List Report) :
    ((Watch.start t).hearAll reports).Exact (finishedLast t reports) := by
  induction reports using List.reverseRecOn with
  | nil =>
    rw [finishedLast_nil]
    exact exact_start h
  | append_singleton reports x ih =>
    rw [finishedLast_snoc, Watch.hearAll_snoc]
    exact ih.hear x

theorem Watch.topology_hear_finished (w : Watch) (id : TaskId) :
    (w.hear (.finished id)).topology = w.topology := by
  dsimp only [Watch.hear]
  split <;> rfl

theorem Watch.topology_hear_reopened (w : Watch) (id : TaskId) :
    (w.hear (.reopened id)).topology = w.topology := by
  dsimp only [Watch.hear]
  split <;> rfl

/-- A report that changes no topology can be repeated. -/
theorem Watch.Exact.same_hear_hear {w : Watch} {finished : Set TaskId}
    (h : w.Exact finished) {x : Report}
    (hx : ∀ w : Watch, (w.hear x).topology = w.topology) :
    ((w.hear x).hear x).release.Same (w.hear x).release := by
  have honce := (h.hear x).shows
  have htwice := ((h.hear x).hear x).shows
  rw [hx w] at honce
  rw [hx (w.hear x), hx w, mark_mark] at htwice
  exact htwice.same honce

/-- What the release strategy remembers and returns is given by the topology
and by the finished tasks. -/
structure Watch.Determined (w : Watch) (finished : Set TaskId) : Prop where
  shows : w.release.Shows w.topology finished
  /-- What comes free is given by the tasks finished then. -/
  taskFinished : ∀ id, w.topology.HasTask id → ∃ r groups,
    w.release.taskFinished w.topology id = .ok (r, groups) ∧ groups.Nodup ∧
      ∀ g, g ∈ groups ↔ Freed w.topology (insert id finished) id g
  taskReopened : ∀ id, w.topology.HasTask id →
    ∃ r, w.release.taskReopened w.topology id = .ok r
  unknown : ∀ id, ¬ w.topology.HasTask id →
    w.release.taskFinished w.topology id = .error (.unknownTask id) ∧
      w.release.taskReopened w.topology id = .error (.unknownTask id)
  finished_again : ∀ id,
    ((w.hear (.finished id)).hear (.finished id)).release.Same
      (w.hear (.finished id)).release
  reopened_again : ∀ id,
    ((w.hear (.reopened id)).hear (.reopened id)).release.Same
      (w.hear (.reopened id)).release

theorem Watch.Exact.determined {w : Watch} {finished : Set TaskId}
    (h : w.Exact finished) : w.Determined finished where
  shows := h.shows
  taskFinished id hid := by
    obtain ⟨r, groups, hok, -, hnodup, hmem⟩ := h.taskFinished hid
    exact ⟨r, groups, hok, hnodup, hmem⟩
  taskReopened id hid := by
    obtain ⟨r, hok, -⟩ := h.taskReopened hid
    exact ⟨r, hok⟩
  unknown id hid :=
    have hindexed := h.reachable.whole.wired.indexed
    ⟨taskFinished_eq_error hindexed hid, taskReopened_eq_error hindexed hid⟩
  finished_again id :=
    h.same_hear_hear fun w => w.topology_hear_finished id
  reopened_again id :=
    h.same_hear_hear fun w => w.topology_hear_reopened id

/-- After any reports, the release strategy is where the tasks last reported
as finished say it is, in whatever order these and other reports came. -/
theorem determined_hearAll {t : Topology} (h : t.Reachable)
    (reports : List Report) :
    ((Watch.start t).hearAll reports).Determined (finishedLast t reports) ∧
      ∀ reports' : List Report,
        ((Watch.start t).hearAll reports').topology =
          ((Watch.start t).hearAll reports).topology →
        finishedLast t reports' = finishedLast t reports →
        ((Watch.start t).hearAll reports').release.Same
          ((Watch.start t).hearAll reports).release := by
  have hexact := exact_hearAll h reports
  refine ⟨hexact.determined, fun reports' htopology hfinished => ?_⟩
  have hshows := (exact_hearAll h reports').shows
  rw [htopology, hfinished] at hshows
  exact hshows.same hexact.shows

/-- Of the small job, the first sink finishes and grows, the second one
finishes and runs again, and a sink that does not exist is reported. What the
sinks read is released with the last of them. -/
theorem determined_sample :
    let w := (Watch.start sample).hearAll
      [.finished ⟨sampleSink, 0⟩, .extended ⟨sampleSink, 0⟩ 1,
        .finished ⟨sampleSink, 1⟩, .finished ⟨sampleSink, 7⟩,
        .reopened ⟨sampleSink, 1⟩, .finished ⟨sampleSink, 2⟩]
    w.Determined (finishedLast sample
      [.finished ⟨sampleSink, 0⟩, .extended ⟨sampleSink, 0⟩ 1,
        .finished ⟨sampleSink, 1⟩, .finished ⟨sampleSink, 7⟩,
        .reopened ⟨sampleSink, 1⟩, .finished ⟨sampleSink, 2⟩]) ∧
      w.release.unfinished = #[[0], [1], [], [3]] ∧
      (w.release.taskFinished w.topology ⟨sampleSink, 1⟩).toOption.map (·.2) =
        some [0] :=
  ⟨(determined_hearAll reachable_sample _).1, by decide +kernel,
    by decide +kernel⟩

end RegionRelease

end ControlPlane
