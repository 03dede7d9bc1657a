import Mathlib
import ControlPlane.Release
import ControlPlane.Proofs.Topology.Regioned

/-!
# Release follows the tasks

For every region, the release state holds the tasks that have not finished,
and for every blocking group that is read, the regions that have not. Every
report keeps this exact, so a group is handed out iff no task is left that
reads it.
-/

namespace ControlPlane

namespace Topology

/-! ## What is left to finish -/

/-- The current attempt of a task has finished. -/
def IsFinished (t : Topology) (i : TaskIndex) : Prop :=
  ∃ task, t.tasks[i]? = some task ∧ task.state = .finished

/-- A task of a region has not finished. -/
def Waiting (t : Topology) (r : RegionIndex) (i : TaskIndex) : Prop :=
  t.regionOf[i]? = some r ∧ ¬ t.IsFinished i

/-- A region reads a blocking group. -/
def ReadsBlocking (t : Topology) (r : RegionIndex) (g : GroupIndex) : Prop :=
  t.IsBlocking g ∧ t.Reads r g

theorem isFinished_iff {t : Topology} {i : Nat} :
    t.IsFinished i ↔ (t.attemptAt i).map (·.state) = some .finished := by
  unfold IsFinished attemptAt Task.state
  cases t.tasks[i]? with
  | none => simp
  | some task => cases h : task.attempt <;> simp [h]

/-- The same regions read the same blocking groups. -/
structure SameReaders (t t' : Topology) : Prop where
  size : t'.regions.size = t.regions.size
  reads : ∀ r g, t'.ReadsBlocking r g ↔ t.ReadsBlocking r g

theorem SameReaders.refl (t : Topology) : SameReaders t t :=
  ⟨rfl, fun _ _ => Iff.rfl⟩

theorem Regioned.mem_groupsRead {t : Topology} (h : t.Regioned) {r g : Nat} :
    g ∈ RegionRelease.groupsRead t r ↔ t.ReadsBlocking r g := by
  unfold RegionRelease.groupsRead
  cases hregion : t.regions[r]? with
  | none =>
    simp only [Option.map_none, Option.getD_none, List.not_mem_nil,
      false_iff]
    rintro ⟨-, i, hi, -⟩
    have hlt := h.lt i r hi
    rw [Array.getElem?_eq_none_iff] at hregion
    omega
  | some region => exact h.mem_blockingGroups r region hregion g

theorem Regioned.nodup_groupsRead {t : Topology} (h : t.Regioned) (r : Nat) :
    (RegionRelease.groupsRead t r).Nodup := by
  unfold RegionRelease.groupsRead
  cases hregion : t.regions[r]? with
  | none => exact List.nodup_nil
  | some region =>
    exact (h.blockingGroups_ascending r region hregion).imp Nat.ne_of_lt

end Topology

open ControlPlane.Topology

/-! ## Views of one group -/

namespace ReaderView

theorem mem_unfinished_finish {v : ReaderView} {r s : Nat} :
    s ∈ (v.finish r).unfinished ↔ s ∈ v.unfinished ∧ s ≠ r := by
  simp [finish]

theorem regions_reopen (v : ReaderView) (r : Nat) :
    (v.reopen r).regions = v.regions := by
  unfold reopen
  split <;> rfl

theorem mem_unfinished_reopen {v : ReaderView} {r s : Nat} :
    s ∈ (v.reopen r).unfinished ↔
      s ∈ v.unfinished ∨ (s = r ∧ r ∈ v.regions) := by
  unfold reopen
  split
  · rename_i hr
    rw [mem_insertAscending]
    tauto
  · rename_i hr
    tauto

theorem isFinished_iff {v : ReaderView} :
    v.isFinished = true ↔ ∀ r, r ∉ v.unfinished := by
  rw [isFinished, List.isEmpty_iff, List.eq_nil_iff_forall_not_mem]

end ReaderView

namespace RegionRelease

/-- What is known of the readers of a group. -/
def view (r : RegionRelease) (g : GroupIndex) : ReaderView :=
  r.readers.getD g {}

theorem view_of_getElem? {r : RegionRelease} {g : GroupIndex}
    {v : ReaderView} (hv : r.readers[g]? = some v) : r.view g = v := by
  rw [view, Std.TreeMap.getD_eq_getD_getElem?, hv, Option.getD_some]

theorem mem_readers_updateReaders {r : RegionRelease} {groups : List Nat}
    {f : ReaderView → ReaderView} {g : Nat} :
    g ∈ (r.updateReaders groups f).readers ↔ g ∈ r.readers := by
  unfold updateReaders
  dsimp only
  induction groups generalizing r with
  | nil => rfl
  | cons x groups ih =>
    rw [List.foldl_cons]
    exact (ih (r := { r with readers := r.readers.modify x f })).trans
      Std.TreeMap.mem_modify

/-- Each of several different views is changed once. -/
theorem view_updateReaders {r : RegionRelease} {groups : List Nat}
    (hgroups : groups.Nodup) {f : ReaderView → ReaderView} (hf : f {} = {})
    (g : Nat) : (r.updateReaders groups f).view g =
      if g ∈ groups then f (r.view g) else r.view g := by
  unfold updateReaders view
  dsimp only
  -- By induction on the groups, which are different: a view that has been
  -- changed is not changed again.
  induction groups generalizing r with
  | nil => simp
  | cons x groups ih =>
    obtain ⟨hx, hgroups⟩ := List.nodup_cons.mp hgroups
    have hmodify : (r.readers.modify x f).getD g {} =
        if x = g then f (r.readers.getD g {}) else r.readers.getD g {} := by
      simp only [Std.TreeMap.getD_eq_getD_getElem?,
        Std.TreeMap.getElem?_modify, Nat.compare_eq_eq]
      split
      · rename_i heq
        subst heq
        cases r.readers[x]? <;> simp [hf]
      · rfl
    rw [List.foldl_cons]
    refine (ih hgroups (r := { r with readers := r.readers.modify x f })).trans
      ?_
    dsimp only
    rw [hmodify]
    by_cases hxg : x = g
    · subst hxg
      simp [hx]
    · simp [hxg, Ne.symm hxg]

/-! ## The state and the topology -/

/-- The release state follows the tasks of a topology. -/
structure Follows (r : RegionRelease) (t : Topology) : Prop where
  size : r.unfinished.size = t.regions.size
  mem_unfinished : ∀ (k : Nat) l, r.unfinished[k]? = some l →
    ∀ i : Nat, i ∈ l ↔ t.Waiting k i
  mem_readers : ∀ k g, t.ReadsBlocking k g → g ∈ r.readers
  mem_regions : ∀ g k, k ∈ (r.view g).regions ↔ t.ReadsBlocking k g
  mem_open : ∀ g k, k ∈ (r.view g).unfinished ↔
    t.ReadsBlocking k g ∧ ∃ i, t.Waiting k i

section Follows

variable {r : RegionRelease} {t t' : Topology}

theorem Follows.congr (h : r.Follows t) (hs : SameReaders t t')
    (hw : ∀ k i, t'.Waiting k i ↔ t.Waiting k i) : r.Follows t' where
  size := h.size.trans hs.size.symm
  mem_unfinished k l hl i := (h.mem_unfinished k l hl i).trans (hw k i).symm
  mem_readers k g hg := h.mem_readers k g ((hs.reads k g).mp hg)
  mem_regions g k := (h.mem_regions g k).trans (hs.reads k g).symm
  mem_open g k := by
    rw [h.mem_open, hs.reads]
    simp only [hw]

/-! ## Tasks that are to finish again -/

theorem readers_foldl_reopenTask (k : Nat) (added : List Nat) :
    (added.foldl (·.reopenTask k ·) r).readers = r.readers := by
  induction added generalizing r with
  | nil => rfl
  | cons i added ih =>
    rw [List.foldl_cons, ih]
    rfl

theorem size_foldl_reopenTask (k : Nat) (added : List Nat) :
    (added.foldl (·.reopenTask k ·) r).unfinished.size =
      r.unfinished.size := by
  induction added generalizing r with
  | nil => rfl
  | cons i added ih =>
    rw [List.foldl_cons, ih]
    exact Array.size_modify

theorem unfinished_foldl_reopenTask {k m : Nat} {added l : List Nat}
    (hl : (added.foldl (·.reopenTask k ·) r).unfinished[m]? = some l) :
    ∃ l', r.unfinished[m]? = some l' ∧
      ∀ i, i ∈ l ↔ i ∈ l' ∨ (m = k ∧ i ∈ added) := by
  induction added generalizing r with
  | nil => exact ⟨l, hl, by simp⟩
  | cons j added ih =>
    obtain ⟨l', hl', hmem⟩ := ih hl
    simp only [reopenTask, Array.getElem?_modify] at hl'
    split at hl'
    · rename_i hkm
      obtain ⟨l'', hl'', rfl⟩ := Option.map_eq_some_iff.mp hl'
      refine ⟨l'', hl'', fun i => ?_⟩
      rw [hmem, mem_insertAscending, List.mem_cons]
      simp only [hkm, true_and]
      tauto
    · rename_i hkm
      refine ⟨l', hl', fun i => ?_⟩
      rw [hmem]
      simp [Ne.symm hkm]

/-- Tasks of one region that are to finish, also when they did not exist
before, are recorded with the region. -/
theorem Follows.reopen (h : r.Follows t) (hs : SameReaders t t')
    (hr : t'.Regioned) {k : Nat} {added : List Nat} (hadded : added ≠ [])
    (hw : ∀ m i, t'.Waiting m i ↔ t.Waiting m i ∨ (m = k ∧ i ∈ added)) :
    ((added.foldl (·.reopenTask k ·) r).reopenRegion t' k).Follows t' := by
  set r' := added.foldl (·.reopenTask k ·) r with hr'
  have hview : ∀ g, (r'.reopenRegion t' k).view g =
      if g ∈ groupsRead t' k then (r.view g).reopen k else r.view g := by
    intro g
    rw [reopenRegion, view_updateReaders (hr.nodup_groupsRead k) rfl, view,
      readers_foldl_reopenTask]
    rfl
  have hsome : ∃ i, t'.Waiting k i := by
    obtain ⟨i, hi⟩ := List.exists_mem_of_ne_nil added hadded
    exact ⟨i, (hw k i).mpr (.inr ⟨rfl, hi⟩)⟩
  exact
    { size := by
        show r'.unfinished.size = _
        rw [size_foldl_reopenTask, h.size, hs.size]
      mem_unfinished := by
        intro m l hl i
        obtain ⟨l', hl', hmem⟩ := unfinished_foldl_reopenTask hl
        rw [hmem, h.mem_unfinished m l' hl', hw]
      mem_readers := by
        intro m g hg
        rw [reopenRegion, mem_readers_updateReaders, readers_foldl_reopenTask]
        exact h.mem_readers m g ((hs.reads m g).mp hg)
      mem_regions := by
        intro g m
        rw [hview, hs.reads]
        split
        · rw [ReaderView.regions_reopen]
          exact h.mem_regions g m
        · exact h.mem_regions g m
      mem_open := by
        intro g m
        -- Regions other than `k` wait as before. For `k` it counts whether it
        -- reads the group at all.
        have hother : m ≠ k → ((∃ i, t'.Waiting m i) ↔ ∃ i, t.Waiting m i) :=
          fun hne => exists_congr fun i => by simp [hw, hne]
        rw [hview, hs.reads]
        by_cases hmk : m = k
        · subst hmk
          split
          · rename_i hg
            have hread := hr.mem_groupsRead.mp hg
            rw [ReaderView.mem_unfinished_reopen, h.mem_regions]
            have hread' := (hs.reads m g).mp hread
            simp [hsome, hread']
          · rename_i hg
            have hread : ¬ t.ReadsBlocking m g := fun hread =>
              hg (hr.mem_groupsRead.mpr ((hs.reads m g).mpr hread))
            rw [h.mem_open]
            simp [hread]
        · rw [hother hmk, ← h.mem_open]
          split
          · rw [ReaderView.mem_unfinished_reopen]
            simp [hmk]
          · rfl }

/-! ## Reports -/

/-- A task and its region are found. -/
theorem Follows.locate_eq (h : r.Follows t) (hs : SameReaders t t')
    (hr : t'.Regioned) {id : TaskId} {i k : Nat} (hi : t'.taskAt id = .ok i)
    (hk : t'.regionOf[i]? = some k) : r.locate t' id = .ok (i, k) := by
  have hlt : k < r.unfinished.size := by
    rw [h.size, ← hs.size]
    exact hr.lt i k hk
  unfold locate
  rw [hi]
  simp only [bind, Except.bind, hk, if_pos hlt]
  rfl

theorem Follows.taskReopened (h : r.Follows t) (hs : SameReaders t t')
    (hr : t'.Regioned) {id : TaskId} {i k : Nat} (hi : t'.taskAt id = .ok i)
    (hk : t'.regionOf[i]? = some k)
    (hw : ∀ m j, t'.Waiting m j ↔ t.Waiting m j ∨ (m = k ∧ j = i)) :
    ∃ r', r.taskReopened t' id = .ok r' ∧ r'.Follows t' := by
  refine ⟨_, ?_, h.reopen hs hr (List.cons_ne_nil i []) (k := k) ?_⟩
  · unfold RegionRelease.taskReopened
    rw [h.locate_eq hs hr hi hk]
    rfl
  · simpa using hw

/-- Whether all readers of a group have finished. -/
def isReleasable (r : RegionRelease) (g : GroupIndex) : Bool :=
  (r.readers[g]?.map (·.isFinished)).getD false

/-- A group can be released iff no region with a task left reads it. -/
theorem Follows.isReleasable_iff (h : r.Follows t) {k g : Nat}
    (hg : t.ReadsBlocking k g) : r.isReleasable g = true ↔
      ∀ m, t.ReadsBlocking m g → ∀ j, ¬ t.Waiting m j := by
  have hsome := Std.TreeMap.mem_iff_isSome_getElem?.mp (h.mem_readers k g hg)
  obtain ⟨v, hv⟩ := Option.isSome_iff_exists.mp hsome
  rw [isReleasable, hv, Option.map_some, Option.getD_some,
    ReaderView.isFinished_iff, ← view_of_getElem? hv]
  simp only [h.mem_open, not_and, not_exists]

/-- The state after one task of a region has been taken off. -/
def finishTask (r : RegionRelease) (region : RegionIndex)
    (task : TaskIndex) : RegionRelease :=
  { r with unfinished := r.unfinished.modify region (·.filter (· ≠ task)) }

/-- The state after the last task of a region has been taken off. -/
def finishRegion (r : RegionRelease) (t : Topology) (region : RegionIndex)
    (task : TaskIndex) : RegionRelease :=
  (r.finishTask region task).updateReaders (groupsRead t region)
    (·.finish region)

theorem taskFinished_eq {id : TaskId} {i k : Nat}
    (hlocate : r.locate t id = .ok (i, k)) : r.taskFinished t id =
      if (r.finishTask k i).unfinished[k]? = some [] then
        .ok (r.finishRegion t k i,
          (groupsRead t k).filter (r.finishRegion t k i).isReleasable)
      else .ok (r.finishTask k i, []) := by
  unfold taskFinished
  rw [hlocate]
  simp only [bind, Except.bind, pure, Except.pure, ne_eq, ite_not]
  rfl

/-- Taking off a task leaves the others. -/
theorem Follows.mem_finishTask (h : r.Follows t) {i k : Nat}
    (hk : t.regionOf[i]? = some k)
    (hw : ∀ m j, t'.Waiting m j ↔ t.Waiting m j ∧ j ≠ i) {m : Nat}
    {l : List Nat} (hl : (r.finishTask k i).unfinished[m]? = some l)
    (j : Nat) : j ∈ l ↔ t'.Waiting m j := by
  rw [finishTask, Array.getElem?_modify] at hl
  split at hl
  · rename_i hkm
    subst hkm
    obtain ⟨l', hl', rfl⟩ := Option.map_eq_some_iff.mp hl
    rw [List.mem_filter, h.mem_unfinished k l' hl', hw]
    simp
  · rename_i hkm
    rw [h.mem_unfinished m l hl, hw]
    refine (and_iff_left_of_imp fun hj hji => hkm ?_).symm
    rw [hji] at hj
    exact Option.some.inj (hk.symm.trans hj.1)

/-- While tasks of the region are left, its groups stay. -/
theorem Follows.finishTask (h : r.Follows t) (hs : SameReaders t t')
    {i k : Nat} (hk : t.regionOf[i]? = some k)
    (hw : ∀ m j, t'.Waiting m j ↔ t.Waiting m j ∧ j ≠ i)
    (hleft : ∃ j, t'.Waiting k j) : (r.finishTask k i).Follows t' := by
  refine ⟨?_, fun m l hl j => h.mem_finishTask hk hw hl j, ?_, ?_, ?_⟩
  · rw [hs.size, ← h.size]
    exact Array.size_modify
  · intro m g hg
    exact h.mem_readers m g ((hs.reads m g).mp hg)
  · intro g m
    exact (h.mem_regions g m).trans (hs.reads m g).symm
  · intro g m
    show m ∈ (r.view g).unfinished ↔ _
    rw [h.mem_open, hs.reads]
    refine and_congr_right fun _ => ⟨fun ⟨j, hj⟩ => ?_, fun ⟨j, hj⟩ =>
      ⟨j, ((hw m j).mp hj).1⟩⟩
    by_cases hji : j = i
    · rw [hji] at hj
      rw [← Option.some.inj (hk.symm.trans hj.1)]
      exact hleft
    · exact ⟨j, (hw m j).mpr ⟨hj, hji⟩⟩

/-- With its last task, a region is finished with all groups it reads. -/
theorem Follows.finishRegion (h : r.Follows t) (hs : SameReaders t t')
    (hr : t'.Regioned) {i k : Nat} (hk : t.regionOf[i]? = some k)
    (hw : ∀ m j, t'.Waiting m j ↔ t.Waiting m j ∧ j ≠ i)
    (hdone : ∀ j, ¬ t'.Waiting k j) :
    (r.finishRegion t' k i).Follows t' := by
  have hview : ∀ g, (r.finishRegion t' k i).view g =
        if g ∈ groupsRead t' k then (r.view g).finish k else r.view g :=
    view_updateReaders (hr.nodup_groupsRead k) rfl
  refine ⟨?_, fun m l hl j => h.mem_finishTask hk hw hl j, ?_, ?_, ?_⟩
  · rw [hs.size, ← h.size]
    exact Array.size_modify
  · intro m g hg
    rw [RegionRelease.finishRegion, mem_readers_updateReaders]
    exact h.mem_readers m g ((hs.reads m g).mp hg)
  · intro g m
    rw [hview, hs.reads, ← h.mem_regions]
    split <;> rfl
  · intro g m
    rw [hview]
    by_cases hmk : m = k
    · subst hmk
      simp only [hdone, exists_false, and_false, iff_false]
      split
      · simp [ReaderView.mem_unfinished_finish]
      · rename_i hg
        rw [h.mem_open, ← hs.reads, ← hr.mem_groupsRead]
        exact fun hopen => hg hopen.1
    · have hother : (∃ j, t'.Waiting m j) ↔ ∃ j, t.Waiting m j := by
        refine exists_congr fun j => (hw m j).trans (and_iff_left_of_imp ?_)
        intro hj hji
        rw [hji] at hj
        exact hmk (Option.some.inj (hj.1.symm.trans hk))
      rw [hother, hs.reads, ← h.mem_open]
      split
      · simp [ReaderView.mem_unfinished_finish, hmk]
      · rfl

/-- When a task finishes, the groups that come free are those of its region
that are read by no region with a task left. -/
theorem Follows.taskFinished (h : r.Follows t) (hs : SameReaders t t')
    (hr : t'.Regioned) {id : TaskId} {i k : Nat} (hi : t'.taskAt id = .ok i)
    (hk : t.regionOf[i]? = some k) (hk' : t'.regionOf[i]? = some k)
    (hw : ∀ m j, t'.Waiting m j ↔ t.Waiting m j ∧ j ≠ i) :
    ∃ r' groups, r.taskFinished t' id = .ok (r', groups) ∧ r'.Follows t' ∧
      groups.Nodup ∧ ∀ g, g ∈ groups ↔ t'.ReadsBlocking k g ∧
        ∀ m, t'.ReadsBlocking m g → ∀ j, ¬ t'.Waiting m j := by
  rw [taskFinished_eq (h.locate_eq hs hr hi hk')]
  obtain ⟨l, hl⟩ : ∃ l, (r.finishTask k i).unfinished[k]? = some l := by
    have hlt := hr.lt i k hk'
    rw [hs.size, ← h.size] at hlt
    simp [RegionRelease.finishTask, hlt]
  have hmem := h.mem_finishTask hk hw hl
  simp only [hl, Option.some.injEq]
  -- Groups can only come free with the last task of the region.
  by_cases hnil : l = []
  · have hdone : ∀ j, ¬ t'.Waiting k j := by
      intro j hj
      rw [← hmem, hnil] at hj
      exact List.not_mem_nil hj
    have hfollows := h.finishRegion hs hr hk hw hdone
    refine ⟨_, _, if_pos hnil, hfollows, (hr.nodup_groupsRead k).filter _, ?_⟩
    intro g
    rw [List.mem_filter, hr.mem_groupsRead]
    exact and_congr_right fun hg => hfollows.isReleasable_iff hg
  · obtain ⟨j, hj⟩ := List.exists_mem_of_ne_nil l hnil
    have hleft := (hmem j).mp hj
    refine ⟨_, [], if_neg hnil, h.finishTask hs hk hw ⟨j, hleft⟩,
      List.nodup_nil, ?_⟩
    intro g
    simp only [List.not_mem_nil, false_iff]
    rintro ⟨hg, hnone⟩
    exact hnone k hg j hleft

theorem reopenTasks_eq {ids : List TaskId} {added : List Nat} {k : Nat}
    (hids : ids.map t.taskAt = added.map .ok) :
    reopenTasks t k ids r = (added.foldl (·.reopenTask k ·) r, .ok ()) := by
  induction ids generalizing r added with
  | nil =>
    rw [List.map_nil, eq_comm, List.map_eq_nil_iff] at hids
    rw [hids]
    rfl
  | cons id ids ih =>
    cases added with
    | nil => simp at hids
    | cons i added =>
      obtain ⟨hid, hids⟩ := List.cons.inj hids
      rw [reopenTasks, hid]
      exact ih hids

/-- Without new tasks there is nothing to record beside a task there is. -/
theorem Follows.tasksAdded_nil (h : r.Follows t) (hr : t.Regioned)
    {sibling : TaskId} {i k : Nat} (hi : t.taskAt sibling = .ok i)
    (hk : t.regionOf[i]? = some k) :
    r.tasksAdded t sibling [] = (r, .ok ()) := by
  unfold RegionRelease.tasksAdded
  rw [h.locate_eq (.refl t) hr hi hk]
  rfl

/-- Tasks that join the region of a sibling are recorded as unfinished. -/
theorem Follows.tasksAdded (h : r.Follows t) (hs : SameReaders t t')
    (hr : t'.Regioned) {sibling : TaskId} {i k : Nat} {ids : List TaskId}
    {added : List Nat} (hi : t'.taskAt sibling = .ok i)
    (hk : t'.regionOf[i]? = some k) (hids : ids.map t'.taskAt = added.map .ok)
    (hw : ∀ m j, t'.Waiting m j ↔ t.Waiting m j ∨ (m = k ∧ j ∈ added)) :
    ∃ r', r.tasksAdded t' sibling ids = (r', .ok ()) ∧ r'.Follows t' := by
  unfold RegionRelease.tasksAdded
  rw [h.locate_eq hs hr hi hk]
  dsimp only
  rw [reopenTasks_eq hids]
  dsimp only
  by_cases hadded : added = []
  · subst hadded
    rw [List.map_nil, List.map_eq_nil_iff] at hids
    rw [hids]
    exact ⟨r, rfl, h.congr hs fun m j => by simp [hw]⟩
  · have hne : ids.isEmpty = false := by
      cases ids with
      | nil => exact absurd (List.map_eq_nil_iff.mp hids.symm) hadded
      | cons id ids => rfl
    rw [hne]
    exact ⟨_, rfl, h.reopen hs hr hadded hw⟩

end Follows

/-! ## The start -/

section Start

variable {r : RegionRelease}

theorem mem_readers_addRegion {x : PipelinedRegion} {g : Nat} :
    g ∈ (r.addRegion x).readers ↔ g ∈ r.readers ∨ g ∈ x.blockingGroups := by
  unfold addRegion
  dsimp only
  generalize r.readers = m
  induction x.blockingGroups generalizing m with
  | nil => simp
  | cons y groups ih =>
    rw [List.foldl_cons, ih, Std.TreeMap.mem_insert, Nat.compare_eq_eq,
      List.mem_cons]
    tauto

/-- A region is added to the views of the groups that it reads. -/
theorem view_addRegion {x : PipelinedRegion} (hx : x.blockingGroups.Nodup)
    (g : Nat) : (r.addRegion x).view g =
      if g ∈ x.blockingGroups then (r.view g).add x.index else r.view g := by
  unfold addRegion view
  dsimp only
  generalize r.readers = m
  generalize x.blockingGroups = groups at hx
  induction groups generalizing m with
  | nil => simp
  | cons y groups ih =>
    obtain ⟨hy, hgroups⟩ := List.nodup_cons.mp hx
    rw [List.foldl_cons, ih _ hgroups, Std.TreeMap.getD_insert]
    simp only [Nat.compare_eq_eq]
    by_cases hyg : y = g
    · subst hyg
      simp [hy]
    · simp [hyg, Ne.symm hyg]

/-- The state after some regions have been added. -/
structure Added (regions : List PipelinedRegion) (r : RegionRelease) :
    Prop where
  unfinished : r.unfinished.toList = regions.map (·.tasks)
  mem_readers : ∀ g, g ∈ r.readers ↔ ∃ x ∈ regions, g ∈ x.blockingGroups
  mem_regions : ∀ g k, k ∈ (r.view g).regions ↔
    ∃ x ∈ regions, x.index = k ∧ g ∈ x.blockingGroups
  mem_open : ∀ g k, k ∈ (r.view g).unfinished ↔
    ∃ x ∈ regions, x.index = k ∧ g ∈ x.blockingGroups

theorem Added.addRegion {regions : List PipelinedRegion}
    (h : Added regions r) {x : PipelinedRegion}
    (hx : x.blockingGroups.Nodup) : Added (regions ++ [x]) (r.addRegion x) := by
  refine ⟨?_, ?_, ?_, ?_⟩
  · show (r.unfinished.push x.tasks).toList = _
    rw [Array.toList_push, h.unfinished, List.map_append]
    rfl
  · intro g
    rw [mem_readers_addRegion, h.mem_readers]
    simp only [List.mem_append, List.mem_singleton, or_and_right, exists_or,
      exists_eq_left]
  · intro g k
    simp only [List.mem_append, List.mem_singleton, or_and_right, exists_or,
      exists_eq_left]
    rw [view_addRegion hx, ← h.mem_regions]
    split <;> rename_i hg
    · rw [ReaderView.add, mem_insertAscending]
      simp [hg, or_comm, eq_comm]
    · simp [hg]
  · intro g k
    simp only [List.mem_append, List.mem_singleton, or_and_right, exists_or,
      exists_eq_left]
    rw [view_addRegion hx, ← h.mem_open]
    split <;> rename_i hg
    · rw [ReaderView.add, mem_insertAscending]
      simp [hg, or_comm, eq_comm]
    · simp [hg]

theorem added_foldl_addRegion {regions : List PipelinedRegion}
    (hregions : ∀ x ∈ regions, x.blockingGroups.Nodup) :
    Added regions (regions.foldl RegionRelease.addRegion {}) := by
  induction regions using List.reverseRecOn with
  | nil =>
    refine ⟨rfl, ?_, ?_, ?_⟩ <;> simp [view]
  | append_singleton regions x ih =>
    rw [List.foldl_append]
    exact (ih fun y hy => hregions y (List.mem_append_left _ hy)).addRegion
      (hregions x (List.mem_append_right _ (List.mem_singleton_self x)))

section OfTopology

variable {t : Topology} (hr : t.Regioned)

include hr

theorem getElem?_of_mem_regions {x : PipelinedRegion}
    (hx : x ∈ t.regions.toList) : t.regions[x.index]? = some x := by
  obtain ⟨k, hk⟩ := List.mem_iff_getElem?.mp hx
  rw [Array.getElem?_toList] at hk
  rwa [hr.index k x hk]

theorem added_ofTopology : Added t.regions.toList (ofTopology t) := by
  rw [ofTopology, ← Array.foldl_toList]
  exact added_foldl_addRegion fun x hx => (hr.blockingGroups_ascending _ x
    (getElem?_of_mem_regions hr hx)).imp Nat.ne_of_lt

/-- The regions that read a blocking group have it in their lists. -/
theorem exists_region_iff (g k : Nat) : (∃ x ∈ t.regions.toList,
    x.index = k ∧ g ∈ x.blockingGroups) ↔ t.ReadsBlocking k g := by
  constructor
  · rintro ⟨x, hx, rfl, hg⟩
    exact (hr.mem_blockingGroups _ x (getElem?_of_mem_regions hr hx) g).mp hg
  · intro hread
    obtain ⟨-, i, hi, -⟩ := id hread
    have hk := Array.getElem?_eq_getElem (hr.lt i k hi)
    exact ⟨_, Array.mem_toList_iff.mpr (Array.getElem_mem _),
      hr.index k _ hk, (hr.mem_blockingGroups k _ hk g).mpr hread⟩

theorem mem_readers_ofTopology (g : Nat) :
    g ∈ (ofTopology t).readers ↔ ∃ k, t.ReadsBlocking k g := by
  rw [(added_ofTopology hr).mem_readers]
  constructor
  · rintro ⟨x, hx, hg⟩
    exact ⟨x.index, (exists_region_iff hr g _).mp ⟨x, hx, rfl, hg⟩⟩
  · rintro ⟨k, hread⟩
    obtain ⟨x, hx, -, hg⟩ := (exists_region_iff hr g k).mpr hread
    exact ⟨x, hx, hg⟩

/-- A new state follows a topology of which no task has finished. -/
theorem follows_ofTopology (hfresh : ∀ i, ¬ t.IsFinished i) :
    (ofTopology t).Follows t := by
  have hadded := added_ofTopology hr
  have hwaiting : ∀ {k i : Nat}, t.Waiting k i ↔ t.regionOf[i]? = some k :=
    fun {k i} => and_iff_left (hfresh i)
  exact
    { size := by
        rw [← Array.length_toList, hadded.unfinished, List.length_map,
          Array.length_toList]
      mem_unfinished := by
        intro k l hl i
        rw [← Array.getElem?_toList, hadded.unfinished, List.getElem?_map,
          Array.getElem?_toList, Option.map_eq_some_iff] at hl
        obtain ⟨x, hx, rfl⟩ := hl
        rw [hr.mem_tasks k x hx, hwaiting]
      mem_readers := by
        exact fun k g hg => (mem_readers_ofTopology hr g).mpr ⟨k, hg⟩
      mem_regions := by
        intro g k
        rw [hadded.mem_regions, exists_region_iff hr]
      mem_open := by
        intro g k
        rw [hadded.mem_open, exists_region_iff hr]
        refine (and_iff_left_of_imp ?_).symm
        rintro ⟨-, i, hi, -⟩
        exact ⟨i, hwaiting.mpr hi⟩ }

end OfTopology

end Start

end RegionRelease

end ControlPlane
