import Mathlib
import ControlPlane.Proofs.Topology.CoLocation

/-!
# Refused job graphs

A graph that is built is refused for a vertex without subtasks, for a cycle,
or for co-located subtasks that come to lie in two regions. Every vertex is
expanded after its producers, so none of them is missing or lacks partitions.
-/

namespace ControlPlane

/-- The producers are known, so a vertex without subtasks is what is wrong. -/
theorem JobGraph.WellFormed.exists_of_validate_eq_error {g : JobGraph}
    (hg : g.WellFormed) {e : Error} (h : g.validate = .error e) :
    ∃ v ∈ g.vertices, v.parallelism = 0 ∧
      e = .invalidGraph (.noSubtasks v.name) := by
  unfold JobGraph.validate at h
  rcases forM_cases _ g.vertices with hok | ⟨v, hv, e', hstep, hfailed⟩
  · rw [hok] at h
    cases h
  · rw [hfailed] at h
    cases h
    refine ⟨v, hv, ?_⟩
    by_cases hzero : v.parallelism = 0
    · rw [if_pos hzero] at hstep
      cases hstep
      exact ⟨hzero, rfl⟩
    · -- What is left of the check looks at the producers.
      have hinputs : v.inputs.forM (fun edge =>
          if g.positions.contains edge.producer then pure ()
          else throw (.invalidGraph (.unknownProducer v.name edge.producer)) :
          JobEdge → Except Error PUnit) = .ok ⟨⟩ := by
        rw [forM_eq_ok_iff]
        intro edge hedge
        obtain ⟨-, w, hw, hid⟩ := hg.producer v hv edge hedge
        obtain ⟨p, hp⟩ := List.mem_iff_getElem?.mp hw
        have hindex := (hg.positions edge.producer p).mpr
          (by simp [JobGraph.idAt, hp, hid])
        have hknown : g.positions.contains edge.producer = true := by
          rw [Std.TreeMap.contains_eq_isSome_getElem?, hindex]
          rfl
        rw [if_pos hknown]
        rfl
      rw [if_neg hzero] at hstep
      simp only [hinputs] at hstep
      cases hstep

namespace Topology

/-- The topology of a job graph, wherever its co-located subtasks lie. -/
def unchecked (g : JobGraph) : Except Error Topology := do
  let order ← g.sorted
  let t ← (order.map (·.id)).foldlM addOperator { graph := g }
  return t.computeRegions

/-- A topology is built in full before co-located subtasks are looked at. -/
theorem ofJobGraph_eq_unchecked (g : JobGraph) :
    ofJobGraph g = (do
      let t ← unchecked g
      t.checkCoLocation
      return t) := by
  simp only [ofJobGraph, unchecked, bind_assoc, pure_bind]

theorem unchecked_eq_ok_iff {g : JobGraph} {t : Topology} :
    unchecked g = .ok t ↔ ∃ order t0, g.sorted = .ok order ∧
      (order.map (·.id)).foldlM addOperator { graph := g } = .ok t0 ∧
      t = t0.computeRegions := by
  unfold unchecked
  simp only [bind, bind_eq_ok_iff, pure, Except.pure, Except.ok.injEq]
  constructor
  · rintro ⟨order, hsorted, t0, hfold, rfl⟩
    exact ⟨order, t0, hsorted, hfold, rfl⟩
  · rintro ⟨order, t0, hsorted, hfold, rfl⟩
    exact ⟨order, hsorted, t0, hfold, rfl⟩

/-- Two vertices of a co-location group have subtasks of one number that lie
in different regions. -/
def Torn (t : Topology) : Prop :=
  ∃ v ∈ t.graph.vertices, ∃ w ∈ t.graph.vertices, ∃ group k,
    v.coLocationGroup = some group ∧ w.coLocationGroup = some group ∧
    k < v.parallelism ∧ k < w.parallelism ∧
    ∃ i j r s : Nat, t.taskIdAt i = some ⟨v.id, k⟩ ∧
      t.taskIdAt j = some ⟨w.id, k⟩ ∧ t.regionOf[i]? = some r ∧
      t.regionOf[j]? = some s ∧ r ≠ s

/-- The first region seen is compared with all others, so any two are. -/
theorem Whole.checkCoLocation_iff_not_torn {t : Topology} (h : t.Whole) :
    t.computeRegions.checkCoLocation = .ok () ↔ ¬ t.computeRegions.Torn := by
  have hbound : ∀ {v k i}, v ∈ t.graph.vertices →
      t.taskIdAt i = some ⟨v.id, k⟩ → k < v.parallelism := by
    intro v k i hv hi
    have hlt := h.exists_taskIdAt_iff.mp ⟨i, hi⟩
    rwa [h.graph.parallelismOf_eq hv] at hlt
  rw [checkCoLocation_eq_ok_iff]
  simp only [Torn, graph_computeRegions, sameLinks_computeRegions.taskIdAt]
  constructor
  · intro hplaces htorn
    obtain ⟨v, hv, w, hw, group, k, hvgroup, hwgroup, -, -, i, j, r, s, hi, hj,
      hr, hs, hne⟩ := htorn
    apply hne
    exact hplaces (group, k) r s
      (h.mem_places_computeRegions.mpr ⟨v, hv, hvgroup, i, hi, hr⟩)
      (h.mem_places_computeRegions.mpr ⟨w, hw, hwgroup, j, hj, hs⟩)
  · intro htorn place r s hr hs
    obtain ⟨v, hv, hvgroup, i, hi, hir⟩ := h.mem_places_computeRegions.mp hr
    obtain ⟨w, hw, hwgroup, j, hj, hjs⟩ := h.mem_places_computeRegions.mp hs
    by_contra hne
    exact htorn ⟨v, hv, w, hw, place.1, place.2, hvgroup, hwgroup,
      hbound hv hi, hbound hw hj, i, j, r, s, hi, hj, hir, hjs, hne⟩

/-- A graph is refused before its topology has regions, or for co-located
subtasks in two of them. -/
theorem of_ofJobGraph_eq_error {g : JobGraph} {e : Error}
    (h : ofJobGraph g = .error e) : unchecked g = .error e ∨
      (∃ t, unchecked g = .ok t) ∧ ∃ subtask group first second,
        e = .coLocation (.split subtask group first second) := by
  rw [ofJobGraph_eq_unchecked] at h
  rcases bind_eq_error_iff.mp h with hun | ⟨t, hun, hrest⟩
  · exact .inl hun
  · rcases bind_eq_error_iff.mp hrest with hcheck | ⟨_, -, hpass⟩
    · obtain ⟨place, first, second, -, rfl⟩ :=
        of_checkCoLocation_eq_error hcheck
      exact .inr ⟨⟨t, hun⟩, place.2, place.1, first, second, rfl⟩
    · cases hpass

section Refused

variable {g : JobGraph} (hg : g.WellFormed)

include hg

/-- A graph is sorted if it can be run, and its vertices are then expanded
without an error. -/
theorem exists_unchecked_iff : (∃ t, unchecked g = .ok t) ↔
    (∀ v ∈ g.vertices, 0 < v.parallelism) ∧ g.Acyclic := by
  rw [← hg.exists_sorted_iff]
  constructor
  · intro hok
    obtain ⟨t, hok⟩ := hok
    obtain ⟨order, t0, hsorted, -, -⟩ := unchecked_eq_ok_iff.mp hok
    exact ⟨order, hsorted⟩
  · intro hok
    obtain ⟨order, hsorted⟩ := hok
    obtain ⟨t0, hfold⟩ := exists_expanded hg hsorted
    exact ⟨_, unchecked_eq_ok_iff.mpr ⟨order, t0, hsorted, hfold, rfl⟩⟩

/-- Whatever fails before the check is found while sorting. -/
theorem exists_of_unchecked_eq_error {e : Error} (h : unchecked g = .error e) :
    (∃ v ∈ g.vertices, v.parallelism = 0 ∧
      e = .invalidGraph (.noSubtasks v.name)) ∨
      ∃ names, e = .invalidGraph (.cycle names) := by
  rcases bind_eq_error_iff.mp h with hsorted | ⟨order, hsorted, hrest⟩
  · rcases bind_eq_error_iff.mp hsorted with hinvalid | ⟨_, -, hcycle⟩
    · exact .inl (hg.exists_of_validate_eq_error hinvalid)
    · dsimp only at hcycle
      split at hcycle
      · cases hcycle
        exact .inr ⟨_, rfl⟩
      · cases hcycle
  · obtain ⟨t0, hfold⟩ := exists_expanded hg hsorted
    rw [hfold] at hrest
    cases hrest

/-- A graph with regions is refused if and only if they tear co-located
subtasks apart. -/
theorem ofJobGraph_of_unchecked {t : Topology} (h : unchecked g = .ok t) :
    t.graph = g ∧
      ((∃ defect, ofJobGraph g = .error (.coLocation defect)) ↔ t.Torn) ∧
      (ofJobGraph g = .ok t ↔ ¬ t.Torn) := by
  obtain ⟨order, t0, hsorted, hfold, rfl⟩ := unchecked_eq_ok_iff.mp h
  obtain ⟨hwhole, hgraph⟩ := whole_of_expanded hg hsorted hfold
  have hbuild : ofJobGraph g = Except.bind
      t0.computeRegions.checkCoLocation fun _ => .ok t0.computeRegions := by
    rw [ofJobGraph_eq_unchecked, h]
    rfl
  refine ⟨graph_computeRegions.trans hgraph, ?_⟩
  rw [hbuild, ← not_iff_not (b := Torn _),
    ← hwhole.checkCoLocation_iff_not_torn]
  cases hcheck : t0.computeRegions.checkCoLocation with
  | ok _ => simp [Except.bind]
  | error e =>
    obtain ⟨place, first, second, -, rfl⟩ := of_checkCoLocation_eq_error hcheck
    simp [Except.bind]

/-- The reasons for which a graph is refused. -/
theorem reason_of_refused {e : Error} (h : ofJobGraph g = .error e) :
    (∃ v ∈ g.vertices, v.parallelism = 0 ∧
      e = .invalidGraph (.noSubtasks v.name)) ∨
    (∃ names, e = .invalidGraph (.cycle names)) ∨
    ∃ subtask group first second,
      e = .coLocation (.split subtask group first second) := by
  rcases of_ofJobGraph_eq_error h with hun | ⟨-, hsplit⟩
  · rcases exists_of_unchecked_eq_error hg hun with hzero | hcycle
    · exact .inl hzero
    · exact .inr (.inl hcycle)
  · exact .inr (.inr hsplit)

/-- A graph is invalid if and only if it has no regions to look at. -/
theorem exists_invalidGraph_iff :
    (∃ defect, ofJobGraph g = .error (.invalidGraph defect)) ↔
      ¬ ∃ t, unchecked g = .ok t := by
  constructor
  · intro hinvalid hregions
    obtain ⟨defect, herror⟩ := hinvalid
    obtain ⟨t, ht⟩ := hregions
    rcases of_ofJobGraph_eq_error herror with hun | ⟨-, _, _, _, _, hsplit⟩
    · rw [ht] at hun
      cases hun
    · cases hsplit
  · intro hnone
    cases hun : unchecked g with
    | ok t => exact absurd ⟨t, hun⟩ hnone
    | error e =>
      have herror : ofJobGraph g = .error e := by
        rw [ofJobGraph_eq_unchecked, hun]
        rfl
      rcases exists_of_unchecked_eq_error hg hun with
        ⟨v, -, -, rfl⟩ | ⟨names, rfl⟩
      · exact ⟨_, herror⟩
      · exact ⟨_, herror⟩

end Refused

/-- When a job graph is refused, and what for. -/
structure Judged (g : JobGraph) : Prop where
  /-- A graph is invalid for a vertex without subtasks or for a cycle. -/
  invalid : (∃ defect, ofJobGraph g = .error (.invalidGraph defect)) ↔
    (∃ v ∈ g.vertices, v.parallelism = 0) ∨
      ∃ id, Relation.TransGen g.LeadsTo id id
  /-- Any other graph has regions. It is refused if they tear co-located
  subtasks apart, and accepted if they do not. -/
  valid : (∀ v ∈ g.vertices, v.parallelism ≠ 0) →
    (¬ ∃ id, Relation.TransGen g.LeadsTo id id) →
    ∃ t, unchecked g = .ok t ∧ t.graph = g ∧
      ((∃ defect, ofJobGraph g = .error (.coLocation defect)) ↔ t.Torn) ∧
      (ofJobGraph g = .ok t ↔ ¬ t.Torn)
  /-- There is no other reason to refuse a graph. -/
  reason : ∀ e, ofJobGraph g = .error e →
    (∃ v ∈ g.vertices, v.parallelism = 0 ∧
      e = .invalidGraph (.noSubtasks v.name)) ∨
    (∃ names, e = .invalidGraph (.cycle names)) ∨
    ∃ subtask group first second,
      e = .coLocation (.split subtask group first second)
  /-- No producer lacks partitions, and no id is unknown. -/
  complete : ∀ e, ofJobGraph g = .error e → e.isInvariantViolation = false ∧
    ∀ dataSet producer, e ≠ .invalidGraph (.missingPartitions dataSet producer)

/-- Exactly the graphs that cannot be run are refused. -/
theorem judged_of_built {g : JobGraph} (hbuilt : g.Built) : Judged g := by
  have hg := hbuilt.wellFormed
  have hacyclic : g.Acyclic ↔ ¬ ∃ id, Relation.TransGen g.LeadsTo id id :=
    not_exists.symm
  have hpositive : (∀ v ∈ g.vertices, 0 < v.parallelism) ↔
      ¬ ∃ v ∈ g.vertices, v.parallelism = 0 := by
    simp [Nat.pos_iff_ne_zero]
  have hregions := exists_unchecked_iff hg
  rw [hpositive, hacyclic, ← not_or] at hregions
  refine ⟨?_, ?_, fun e => reason_of_refused hg, ?_⟩
  · rw [exists_invalidGraph_iff hg, hregions, not_not]
  · intro hsubtasks hcycle
    obtain ⟨t, ht⟩ :=
      hregions.mpr (not_or.mpr ⟨by simpa using hsubtasks, hcycle⟩)
    exact ⟨t, ht, ofJobGraph_of_unchecked hg ht⟩
  · intro e herror
    rcases reason_of_refused hg herror with
      ⟨_, -, -, rfl⟩ | ⟨_, rfl⟩ | ⟨_, _, _, _, rfl⟩ <;>
        simp [Error.isInvariantViolation]

/-- The small job, in which a source and a sink have to be together. -/
def tornGraph : JobGraph :=
  ((sampleGraph.setCoLocationGroup sampleSource "pair").bind
    (·.setCoLocationGroup sampleSink "pair")).toOption.getD sampleGraph

theorem built_tornGraph : tornGraph.Built := by
  cases hsource : sampleGraph.setCoLocationGroup sampleSource "pair" with
  | error e => cases hsource
  | ok g =>
    have hsink : g.setCoLocationGroup sampleSink "pair" = .ok tornGraph := by
      cases hsource
      rfl
    exact .setCoLocationGroup (.setCoLocationGroup built_sampleGraph hsource)
      hsink

theorem judged_tornGraph : tornGraph.Built ∧ Judged tornGraph ∧
    ofJobGraph tornGraph = .error (.coLocation (.split 0 "pair" 0 2)) := by
  have herror : (match ofJobGraph tornGraph with
      | .ok _ => none
      | .error e => some e) = some (.coLocation (.split 0 "pair" 0 2)) := by
    decide +kernel
  refine ⟨built_tornGraph, judged_of_built built_tornGraph, ?_⟩
  split at herror
  · cases herror
  · rename_i e hrefused
    cases herror
    exact hrefused

end Topology

end ControlPlane
