import Mathlib
import ControlPlane.Proofs.Release

/-!
# The form of the release state

The release state lists tasks and regions in ascending order, and has a view
of the same groups all the time. So two states that list the same tasks and
regions are the same.
-/

namespace ControlPlane

theorem pairwise_lt_insertAscending {x : Nat} {l : List Nat}
    (h : l.Pairwise (· < ·)) : (insertAscending x l).Pairwise (· < ·) :=
  (pairwise_insertAscending (h.imp Nat.compare_eq_lt.mpr)).imp
    Nat.compare_eq_lt.mp

namespace ReaderView

/-- Both lists are ascending. -/
structure Ordered (v : ReaderView) : Prop where
  regions : v.regions.Pairwise (· < ·)
  unfinished : v.unfinished.Pairwise (· < ·)

section Ordered

variable {v : ReaderView}

theorem ordered_empty : Ordered {} := ⟨.nil, .nil⟩

theorem Ordered.add (h : v.Ordered) (region : RegionIndex) :
    (v.add region).Ordered :=
  ⟨pairwise_lt_insertAscending h.regions,
    pairwise_lt_insertAscending h.unfinished⟩

theorem Ordered.finish (h : v.Ordered) (region : RegionIndex) :
    (v.finish region).Ordered :=
  ⟨h.regions, h.unfinished.filter _⟩

theorem Ordered.reopen (h : v.Ordered) (region : RegionIndex) :
    (v.reopen region).Ordered := by
  unfold ReaderView.reopen
  split
  · exact ⟨h.regions, pairwise_lt_insertAscending h.unfinished⟩
  · exact h

end Ordered

end ReaderView

namespace RegionRelease

/-- Everything is listed in ascending order. -/
structure Ordered (r : RegionRelease) : Prop where
  unfinished : ∀ (k : Nat) l, r.unfinished[k]? = some l →
    l.Pairwise (· < ·)
  view : ∀ g, (r.view g).Ordered

/-- A step keeps the order of what is listed, and the groups of which there
is a view. -/
structure Keeps (r r' : RegionRelease) : Prop where
  ordered : r.Ordered → r'.Ordered
  mem_readers : ∀ g, g ∈ r'.readers ↔ g ∈ r.readers

theorem Keeps.refl (r : RegionRelease) : r.Keeps r := ⟨id, fun _ => Iff.rfl⟩

theorem Keeps.trans {r r' r'' : RegionRelease} (h : r.Keeps r')
    (h' : r'.Keeps r'') : r.Keeps r'' :=
  ⟨h'.ordered ∘ h.ordered, fun g => (h'.mem_readers g).trans (h.mem_readers g)⟩

section Steps

variable {r r' : RegionRelease} {t : Topology} {id : TaskId}

/-- Changing the tasks that one region lists. -/
theorem keeps_modify {f : List TaskIndex → List TaskIndex}
    (hf : ∀ l, l.Pairwise (· < ·) → (f l).Pairwise (· < ·)) (k : Nat) :
    r.Keeps { r with unfinished := r.unfinished.modify k f } := by
  refine ⟨fun h => ⟨fun m l hl => ?_, h.view⟩, fun _ => Iff.rfl⟩
  rw [Array.getElem?_modify] at hl
  split at hl
  · obtain ⟨l', hl', rfl⟩ := Option.map_eq_some_iff.mp hl
    exact hf l' (h.unfinished m l' hl')
  · exact h.unfinished m l hl

theorem keeps_finishTask (k i : Nat) : r.Keeps (r.finishTask k i) :=
  keeps_modify (fun _ h => h.filter _) k

theorem keeps_reopenTask (k i : Nat) : r.Keeps (r.reopenTask k i) :=
  keeps_modify (fun _ h => pairwise_lt_insertAscending h) k

/-- Changing some of the views. -/
theorem keeps_updateReaders {groups : List Nat} (hgroups : groups.Nodup)
    {f : ReaderView → ReaderView} (hempty : f {} = {})
    (hf : ∀ v, v.Ordered → (f v).Ordered) :
    r.Keeps (r.updateReaders groups f) := by
  refine ⟨fun h => ⟨h.unfinished, fun g => ?_⟩,
    fun g => mem_readers_updateReaders⟩
  rw [view_updateReaders hgroups hempty]
  split
  · exact hf _ (h.view g)
  · exact h.view g

theorem keeps_reopenRegion (hr : t.Regioned) (k : Nat) :
    r.Keeps (r.reopenRegion t k) :=
  keeps_updateReaders (hr.nodup_groupsRead k) rfl fun _ h => h.reopen k

theorem keeps_finishRegion (hr : t.Regioned) (k i : Nat) :
    r.Keeps (r.finishRegion t k i) :=
  (keeps_finishTask k i).trans <|
    keeps_updateReaders (hr.nodup_groupsRead k) rfl fun _ h => h.finish k

/-! ## Reports -/

theorem keeps_taskFinished (hr : t.Regioned) {groups : List GroupIndex}
    (hok : r.taskFinished t id = .ok (r', groups)) : r.Keeps r' := by
  obtain ⟨⟨i, k⟩, hlocate, -⟩ := bind_eq_ok_iff.mp hok
  rw [taskFinished_eq hlocate] at hok
  split at hok
  · cases hok
    exact keeps_finishRegion hr k i
  · cases hok
    exact keeps_finishTask k i

theorem keeps_taskReopened (hr : t.Regioned)
    (hok : r.taskReopened t id = .ok r') : r.Keeps r' := by
  obtain ⟨⟨i, k⟩, -, hret⟩ := bind_eq_ok_iff.mp hok
  cases hret
  exact (keeps_reopenTask k i).trans (keeps_reopenRegion hr k)

theorem keeps_reopenTasks (k : Nat) (ids : List TaskId) (r : RegionRelease) :
    r.Keeps (reopenTasks t k ids r).1 := by
  induction ids generalizing r with
  | nil => exact .refl r
  | cons id ids ih =>
    unfold reopenTasks
    split
    · exact .refl r
    · exact (keeps_reopenTask k _).trans (ih _)

theorem keeps_tasksAdded (hr : t.Regioned) (sibling : TaskId)
    (ids : List TaskId) : r.Keeps (r.tasksAdded t sibling ids).1 := by
  unfold tasksAdded
  split
  · exact .refl r
  · rename_i k hlocate
    have hkeeps := keeps_reopenTasks (t := t) k ids r
    split
    · rename_i heq
      rw [heq] at hkeeps
      exact hkeeps
    · rename_i heq
      rw [heq] at hkeeps
      dsimp only at hkeeps ⊢
      split
      · exact hkeeps
      · exact hkeeps.trans (keeps_reopenRegion hr k)

end Steps

/-! ## The start -/

theorem Ordered.addRegion {r : RegionRelease} (h : r.Ordered)
    {x : PipelinedRegion} (htasks : x.tasks.Pairwise (· < ·))
    (hgroups : x.blockingGroups.Nodup) : (r.addRegion x).Ordered where
  unfinished k l hl := by
    unfold RegionRelease.addRegion at hl
    dsimp only at hl
    rw [Array.getElem?_push] at hl
    split at hl
    · cases hl
      exact htasks
    · exact h.unfinished k l hl
  view g := by
    rw [view_addRegion hgroups]
    split
    · exact (h.view g).add _
    · exact h.view g

theorem ordered_ofTopology {t : Topology} (hr : t.Regioned) :
    (ofTopology t).Ordered := by
  rw [ofTopology, ← Array.foldl_toList]
  apply List.foldlRecOn
  · exact ⟨by simp, fun g => ReaderView.ordered_empty⟩
  · intro r h x hx
    have hget := getElem?_of_mem_regions hr hx
    exact h.addRegion (hr.tasks_ascending _ x hget)
      ((hr.blockingGroups_ascending _ x hget).imp Nat.ne_of_lt)

end RegionRelease

end ControlPlane
