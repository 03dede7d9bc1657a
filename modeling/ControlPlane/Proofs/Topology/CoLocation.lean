import Mathlib
import ControlPlane.Proofs.Topology.Numbered
import ControlPlane.Proofs.Topology.Partitioned

/-!
# Co-location

The check notes the region at which a co-location group first has a subtask
of some number, and compares the others with it. It passes if and only if the
job graph keeps co-located subtasks together. This and an order of the
vertices are all that a job graph needs to be accepted.
-/

namespace ControlPlane

/-! ## Values noted at places -/

section Notes

variable {κ β : Type*} {ε : Type*} {cmp : κ → κ → Ordering}
  {f : Std.TreeMap κ β cmp → κ × β → Except ε (Std.TreeMap κ β cmp)}

/-- A step that notes the first value at a place and refuses others. -/
structure Notes
    (f : Std.TreeMap κ β cmp → κ × β → Except ε (Std.TreeMap κ β cmp)) :
    Prop where
  first : ∀ seen k x, seen[k]? = none → f seen (k, x) = .ok (seen.insert k x)
  same : ∀ seen k x, seen[k]? = some x → f seen (k, x) = .ok seen
  other : ∀ seen k x y, seen[k]? = some y → y ≠ x →
    ∃ e, f seen (k, x) = .error e

variable [Std.TransCmp cmp] [Std.LawfulEqCmp cmp] (h : Notes f)
  {ps : List (κ × β)}

include h

/-- The values noted are the first at their places. -/
theorem Notes.of_foldlM {seen : Std.TreeMap κ β cmp}
    (hok : ps.foldlM f ∅ = .ok seen) :
    ∀ k x, (k, x) ∈ ps → seen[k]? = some x := by
  refine foldlM_ok_induction (P := fun pre (seen : Std.TreeMap κ β cmp) =>
    ∀ k x, (k, x) ∈ pre → seen[k]? = some x) ?_ (by simp) hok
  intro pre p post _ s s' hs hstep k x hx
  obtain ⟨k', x'⟩ := p
  -- The first note under a key stays: a later one is the same or fails.
  cases hget : s[k']? with
  | none =>
    rw [h.first s k' x' hget, Except.ok.injEq] at hstep
    rw [← hstep, Std.TreeMap.getElem?_insert]
    rcases List.mem_append.mp hx with hx | hx
    · have hne : cmp k' k ≠ .eq := fun heq => by
        rw [Std.LawfulEqCmp.eq_of_compare heq, hs k x hx] at hget
        cases hget
      rw [if_neg hne]
      exact hs k x hx
    · cases List.mem_singleton.mp hx
      rw [if_pos Std.ReflCmp.compare_self]
  | some y =>
    by_cases hy : y = x'
    · subst hy
      rw [h.same s k' y hget, Except.ok.injEq] at hstep
      rw [← hstep]
      rcases List.mem_append.mp hx with hx | hx
      · exact hs k x hx
      · cases List.mem_singleton.mp hx
        exact hget
    · obtain ⟨e, he⟩ := h.other s k' x' y hget hy
      rw [he] at hstep
      cases hstep

/-- Nothing is refused if no place has two values. -/
theorem Notes.exists_foldlM_iff : (∃ seen, ps.foldlM f ∅ = .ok seen) ↔
    ∀ k x y, (k, x) ∈ ps → (k, y) ∈ ps → x = y := by
  constructor
  · rintro ⟨seen, hok⟩ k x y hx hy
    have hget := h.of_foldlM hok k x hx
    rw [h.of_foldlM hok k y hy, Option.some.injEq] at hget
    exact hget.symm
  · intro hps
    refine (exists_foldlM_ok (P := fun pre (seen : Std.TreeMap κ β cmp) =>
      ∀ k x, seen[k]? = some x → (k, x) ∈ pre) ?_ (by simp)).imp
        fun _ hloop => hloop.1
    rintro pre ⟨k', x'⟩ post hpre s hs
    cases hget : s[k']? with
    | none =>
      refine ⟨_, h.first s k' x' hget, fun k x hx => ?_⟩
      rw [Std.TreeMap.getElem?_insert] at hx
      split at hx
      · rename_i heq
        rw [← Std.LawfulEqCmp.eq_of_compare heq, ← Option.some.inj hx]
        simp
      · exact List.mem_append_left _ (hs k x hx)
    | some y =>
      have hy : y = x' := hps k' y x'
        (by rw [hpre]; exact List.mem_append_left _ (hs k' y hget))
        (by simp [hpre])
      subst hy
      exact ⟨s, h.same s k' y hget,
        fun k x hx => List.mem_append_left _ (hs k x hx)⟩

end Notes

/-- Every vertex has subtasks, no edges lead in a circle, and co-located
subtasks belong together. -/
structure JobGraph.Runnable (g : JobGraph) : Prop where
  parallelism : ∀ v ∈ g.vertices, 0 < v.parallelism
  acyclic : g.Acyclic
  coLocated : g.CoLocated

namespace Topology

/-! ## The check -/

/-- The regions of co-located subtasks, by group and number. -/
def places (t : Topology) : List ((String × Nat) × RegionIndex) :=
  t.operators.flatMap fun operator =>
    match operator.coLocationGroup with
    | none => []
    | some group => operator.tasks.zipIdx.filterMap fun (task, subtask) =>
      t.regionOf[task]?.map fun region => ((group, subtask), region)

instance : Std.LawfulEqCmp (compareLex (compareOn (·.1)) (compareOn (·.2)) :
    String × Nat → String × Nat → Ordering) where
  eq_of_compare {a b} h := by
    obtain ⟨h1, h2⟩ := compareLex_eq_eq.mp h
    exact Prod.ext (Std.LawfulEqCmp.eq_of_compare h1)
      (Std.LawfulEqCmp.eq_of_compare h2)

theorem checkCoLocation_eq_ok_iff {t : Topology} :
    t.checkCoLocation = .ok () ↔ ∀ place x y, (place, x) ∈ t.places →
      (place, y) ∈ t.places → x = y := by
  unfold checkCoLocation
  simp only [bind, bind_eq_ok_iff, pure, Except.pure, and_true]
  apply Notes.exists_foldlM_iff
  constructor
  · intro seen k x hget
    simp [hget]
  · intro seen k x hget
    simp [hget]
  · intro seen k x y hget hne
    simp [hget, hne]

/-- The check fails at two regions for one place. -/
theorem of_checkCoLocation_eq_error {t : Topology} {e : Error}
    (h : t.checkCoLocation = .error e) : ∃ (place : String × Nat) (x y : Nat),
      x ≠ y ∧ e = .coLocation (.split place.2 place.1 x y) := by
  unfold checkCoLocation at h
  rcases bind_eq_error_iff.mp h with hloop | ⟨_, -, hpass⟩
  · obtain ⟨seen, ⟨place, region⟩, -, hstep⟩ := exists_of_foldlM_eq_error hloop
    dsimp only at hstep
    split at hstep
    · cases hstep
    · rename_i first _
      split at hstep
      · cases hstep
      · rename_i hne
        cases hstep
        exact ⟨place, first, region, hne, rfl⟩
  · cases hpass

variable {t : Topology}

theorem mem_places {group : String} {k r : Nat} :
    ((group, k), r) ∈ t.places ↔ ∃ o ∈ t.operators,
      o.coLocationGroup = some group ∧
        ∃ i : Nat, o.tasks[k]? = some i ∧ t.regionOf[i]? = some r := by
  rw [places, List.mem_flatMap]
  refine exists_congr fun o => and_congr_right fun _ => ?_
  cases o.coLocationGroup with
  | none => simp
  | some group' =>
    simp only [List.mem_filterMap, Prod.exists, Option.map_eq_some_iff,
      List.mem_zipIdx_iff_getElem?, Option.some.injEq, Prod.mk.injEq]
    constructor
    · rintro ⟨i, k', hi, r', hr, ⟨rfl, rfl⟩, rfl⟩
      exact ⟨rfl, i, hi, hr⟩
    · rintro ⟨rfl, i, hi, hr⟩
      exact ⟨i, k, hi, r, hr, ⟨rfl, rfl⟩, rfl⟩

section Whole

variable (h : t.Whole)

include h

/-- A place is had by a subtask of a vertex of the group. -/
theorem Whole.mem_places_computeRegions {group : String} {k r : Nat} :
    ((group, k), r) ∈ t.computeRegions.places ↔ ∃ v ∈ t.graph.vertices,
      v.coLocationGroup = some group ∧ ∃ i : Nat,
        t.taskIdAt i = some ⟨v.id, k⟩ ∧
          t.computeRegions.regionOf[i]? = some r := by
  rw [mem_places, operators_computeRegions]
  constructor
  · rintro ⟨o, ho, hgroup, i, hi, hr⟩
    obtain ⟨v, hv, hov⟩ := h.staffed.vertex o ho
    refine ⟨v, hv, ?_, i, ?_, hr⟩
    · rw [← hgroup, hov]
      rfl
    · rw [h.staffed.taskIdAt_getElem? ho hi, hov]
      rfl
  · rintro ⟨v, hv, hgroup, i, hi, hr⟩
    obtain ⟨o, ho, hid, hov⟩ := h.exists_operator hv
    refine ⟨o, ho, ?_, i, ?_, hr⟩
    · rw [← hgroup, hov]
      rfl
    · obtain ⟨k', hk'⟩ := List.mem_iff_getElem?.mp
        ((h.staffed.mem_tasks ho).mpr ⟨_, hi, hid.symm⟩)
      have heq := h.staffed.taskIdAt_getElem? ho hk'
      rw [hi, Option.some.injEq, TaskId.mk.injEq] at heq
      rw [heq.2]
      exact hk'

/-- The check passes iff the job graph keeps co-located subtasks together. -/
theorem Whole.checkCoLocation_iff :
    t.computeRegions.checkCoLocation = .ok () ↔ t.graph.CoLocated := by
  have hpar := fun {v} => h.graph.parallelismOf_eq (v := v)
  rw [checkCoLocation_eq_ok_iff]
  constructor
  · intro hplaces v hv w hw group hvgroup hwgroup k hvk hwk
    rw [← hpar hv] at hvk
    rw [← hpar hw] at hwk
    obtain ⟨i, hi⟩ : ∃ i, t.taskIdAt i = some ⟨v.id, k⟩ :=
      h.exists_taskIdAt_iff.mpr hvk
    obtain ⟨j, hj⟩ : ∃ j, t.taskIdAt j = some ⟨w.id, k⟩ :=
      h.exists_taskIdAt_iff.mpr hwk
    rw [← h.together_iff hi hj,
      ← h.regionOf_eq_iff (lt_of_taskIdAt hi) (lt_of_taskIdAt hj)]
    have hregion : ∀ {i : Nat}, i < t.tasks.size →
        ∃ r, t.computeRegions.regionOf[i]? = some r := fun hlt => by
      rw [← tasks_computeRegions] at hlt
      exact h.regioned_computeRegions.exists_regionOf hlt
    obtain ⟨r, hr⟩ := hregion (lt_of_taskIdAt hi)
    obtain ⟨s, hs⟩ := hregion (lt_of_taskIdAt hj)
    rw [hr, hs, hplaces (group, k) r s
      (h.mem_places_computeRegions.mpr ⟨v, hv, hvgroup, i, hi, hr⟩)
      (h.mem_places_computeRegions.mpr ⟨w, hw, hwgroup, j, hj, hs⟩)]
  · rintro hco ⟨group, k⟩ r s hr hs
    obtain ⟨v, hv, hvgroup, i, hi, hir⟩ := h.mem_places_computeRegions.mp hr
    obtain ⟨w, hw, hwgroup, j, hj, hjs⟩ := h.mem_places_computeRegions.mp hs
    have hvk := h.exists_taskIdAt_iff.mp ⟨i, hi⟩
    have hwk := h.exists_taskIdAt_iff.mp ⟨j, hj⟩
    rw [hpar hv] at hvk
    rw [hpar hw] at hwk
    have htogether := (h.together_iff hi hj).mpr
      (hco v hv w hw group hvgroup hwgroup k hvk hwk)
    rw [← h.regionOf_eq_iff (lt_of_taskIdAt hi) (lt_of_taskIdAt hj), hir,
      hjs] at htogether
    exact Option.some.inj htogether

end Whole

/-! ## Accepted job graphs -/

/-- A job graph is accepted if and only if it can be run. -/
theorem exists_ofJobGraph_iff {g : JobGraph} (hg : g.WellFormed) :
    (∃ t, ofJobGraph g = .ok t) ↔ g.Runnable := by
  have hsplit : g.Runnable ↔ (∃ order, g.sorted = .ok order) ∧ g.CoLocated := by
    rw [hg.exists_sorted_iff]
    exact ⟨fun h => ⟨⟨h.parallelism, h.acyclic⟩, h.coLocated⟩,
      fun ⟨⟨hpositive, hacyclic⟩, hco⟩ => ⟨hpositive, hacyclic, hco⟩⟩
  rw [hsplit]
  constructor
  · rintro ⟨t, hok⟩
    obtain ⟨order, t0, hsorted, hfold, hcheck, -⟩ :=
      ofJobGraph_eq_ok_iff.mp hok
    obtain ⟨hwhole, hgraph⟩ := whole_of_expanded hg hsorted hfold
    exact ⟨⟨order, hsorted⟩, hgraph ▸ hwhole.checkCoLocation_iff.mp hcheck⟩
  · rintro ⟨⟨order, hsorted⟩, hco⟩
    obtain ⟨t0, hfold⟩ := exists_expanded hg hsorted
    obtain ⟨hwhole, hgraph⟩ := whole_of_expanded hg hsorted hfold
    exact ⟨_, ofJobGraph_eq_ok_iff.mpr ⟨order, t0, hsorted, hfold,
      hwhole.checkCoLocation_iff.mpr (hgraph.symm ▸ hco), rfl⟩⟩

/-- A graph with subtasks at every vertex is refused for a cycle or for
co-located subtasks in two regions, and for nothing else. -/
theorem ofJobGraph_cases {g : JobGraph} (hg : g.WellFormed)
    (hpositive : ∀ v ∈ g.vertices, 0 < v.parallelism) :
    (g.Acyclic ∧ g.CoLocated ∧ ∃ t, ofJobGraph g = .ok t) ∨
      (¬ g.Acyclic ∧
        ∃ names, ofJobGraph g = .error (.invalidGraph (.cycle names))) ∨
      (g.Acyclic ∧ ¬ g.CoLocated ∧ ∃ subtask group first second,
        first ≠ second ∧ ofJobGraph g =
          .error (.coLocation (.split subtask group first second))) := by
  rcases hg.sorted_cases hpositive with
    ⟨hacyclic, order, hsorted⟩ | ⟨hcycle, names, herror⟩
  · by_cases hco : g.CoLocated
    · exact .inl ⟨hacyclic, hco,
        (exists_ofJobGraph_iff hg).mpr ⟨hpositive, hacyclic, hco⟩⟩
    · -- The expansion goes through, so it is the check behind it that fails.
      obtain ⟨t0, hfold⟩ := exists_expanded hg hsorted
      obtain ⟨hwhole, hgraph⟩ := whole_of_expanded hg hsorted hfold
      have hbuild : ofJobGraph g = Except.bind
          t0.computeRegions.checkCoLocation fun _ => .ok t0.computeRegions := by
        rw [ofJobGraph, hsorted]
        simp only [bind, Except.bind, hfold]
        rfl
      refine .inr (.inr ⟨hacyclic, hco, ?_⟩)
      cases hcheck : t0.computeRegions.checkCoLocation with
      | ok _ => exact absurd (hgraph ▸ hwhole.checkCoLocation_iff.mp hcheck) hco
      | error e =>
        obtain ⟨⟨group, subtask⟩, first, second, hne, rfl⟩ :=
          of_checkCoLocation_eq_error hcheck
        rw [hbuild, hcheck]
        exact ⟨subtask, group, first, second, hne, rfl⟩
  · refine .inr (.inl ⟨hcycle, names, ?_⟩)
    rw [ofJobGraph, herror]
    rfl

end Topology

end ControlPlane
