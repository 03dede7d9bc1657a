import Mathlib
import ControlPlane.Proofs.Checkpoint.Plan

/-!
# Scopes that come to the whole job

A snapshot group that every vertex belongs to is planned for as the whole job
is: its targets are the same, and so are the tasks that decide how to plan.
Once a task has finished, a scope before a rescale is planned for as the whole
job too: nothing is left of it but the check that the vertices are known.
-/

namespace ControlPlane.Checkpoint

open ControlPlane.Topology

section WholeScope

variable {t : Topology}

/-- A member has the part that it has in a checkpoint of the whole job. -/
theorem groupTarget_of_member {o : Operator} {name : String}
    (ho : o.snapshotGroup = some name) (members : List VertexId)
    (reached : Std.TreeSet VertexId) :
    groupTarget t name members reached o =
      { operator := o, waited := true, triggered := o.isInput } := by
  simp [groupTarget, ho]

theorem targets_group_of_members {name : String} (hne : t.operators ≠ [])
    (hall : ∀ o ∈ t.operators, o.snapshotGroup = some name) :
    targets t (.group name) = targets t .job := by
  obtain ⟨o, ho⟩ := List.exists_mem_of_ne_nil _ hne
  have hany : t.operators.any (·.snapshotGroup = some name) = true :=
    List.any_eq_true.mpr ⟨o, ho, decide_eq_true (hall o ho)⟩
  simp only [targets, if_pos hany]
  exact congrArg Except.ok
    (List.map_congr_left fun o ho => groupTarget_of_member (hall o ho) _ _)

/-- A scope that names known vertices only has targets. -/
theorem exists_targets_rescale {vertex : VertexId} {blocked : List VertexId}
    (hknown : ∀ id ∈ vertex :: blocked, id ∈ t.operatorIndex) :
    ∃ ts, targets t (.rescale vertex blocked) = .ok ts := by
  have hfind : (vertex :: blocked).find?
      (!t.operatorIndex.contains ·) = none := by
    rw [List.find?_eq_none]
    intro id hid
    simpa using hknown id hid
  rw [targets, hfind]
  exact ⟨_, rfl⟩

theorem plan_group_of_members {name : String} (hne : t.operators ≠ [])
    (hall : ∀ o ∈ t.operators, o.snapshotGroup = some name) (allow : Bool) :
    plan t allow (.group name) = plan t allow .job := by
  have hconsidered : t.operators.filter (·.snapshotGroup = some name) =
      t.operators := by
    simpa using hall
  unfold plan
  rw [targets_group_of_members hne hall]
  dsimp only [targets, bind, Except.bind]
  rw [hconsidered, List.map_map]
  rfl

/-- After a task has finished, the targets of a scope before a rescale are not
looked at. -/
theorem plan_rescale_of_finished {vertex : VertexId} {blocked : List VertexId}
    (hknown : ∀ id ∈ vertex :: blocked, id ∈ t.operatorIndex)
    (hfinished : hasFinishedTask t t.operators = true) (allow : Bool) :
    plan t allow (.rescale vertex blocked) = plan t allow .job := by
  obtain ⟨ts, hts⟩ := exists_targets_rescale hknown
  unfold plan
  rw [hts]
  dsimp only [targets, bind, Except.bind]
  rw [hfinished]
  rfl

end WholeScope

/-- A snapshot group of all vertices, and any vertices before a rescale once
some task has finished, are planned for as the whole job, with the same plan
or the same failure. -/
theorem plan_eq_plan_job {t : Topology} (h : t.Reachable)
    (hne : t.graph.vertices ≠ []) (allow : Bool) :
    (∀ name, (∀ v ∈ t.graph.vertices, v.snapshotGroup = some name) →
      plan t allow (.group name) = plan t allow .job) ∧
    ((∃ id, t.InState id .finished) → ∀ vertex blocked,
      (∀ id ∈ vertex :: blocked, ∃ v ∈ t.graph.vertices, v.id = id) →
        plan t allow (.rescale vertex blocked) = plan t allow .job) := by
  have hwhole := h.whole
  constructor
  · intro name hall
    obtain ⟨v, hv⟩ := List.exists_mem_of_ne_nil _ hne
    obtain ⟨o, ho, -⟩ := hwhole.exists_operator hv
    refine plan_group_of_members (List.ne_nil_of_mem ho) (fun o ho => ?_) allow
    obtain ⟨w, hw, how⟩ := hwhole.staffed.vertex o ho
    rw [how]
    exact hall w hw
  · rintro ⟨id, hid⟩ vertex blocked hknown
    have hfinished : hasFinishedTask t t.operators = true :=
      (hasFinishedTask_iff_someFinished hwhole.toSound .job).mpr
        ⟨id, trivial, hid⟩
    refine plan_rescale_of_finished (fun id hid => ?_) hfinished allow
    obtain ⟨v, hv, rfl⟩ := hknown id hid
    obtain ⟨o, ho, hov, -⟩ := hwhole.exists_operator hv
    obtain ⟨pos, hpos⟩ := List.mem_iff_getElem?.mp ho
    rw [Std.TreeMap.mem_iff_isSome_getElem?, ← hov,
      (hwhole.staffed.operatorIndex o.id pos).mpr (by simp [hpos])]
    rfl

/-! ## A group of all vertices -/

/-- The small job with its source in a group. -/
def halfJoined : JobGraph :=
  (sampleGraph.setSnapshotGroup sampleSource "g").toOption.getD sampleGraph

/-- The small job in one group. -/
def joinedGraph : JobGraph :=
  (halfJoined.setSnapshotGroup sampleSink "g").toOption.getD halfJoined

theorem built_joinedGraph : joinedGraph.Built := by
  have hsource : sampleGraph.setSnapshotGroup sampleSource "g" =
    .ok halfJoined := rfl
  have hsink : halfJoined.setSnapshotGroup sampleSink "g" =
    .ok joinedGraph := rfl
  exact .setSnapshotGroup (.setSnapshotGroup built_sampleGraph hsource) hsink

/-- The job in one group, after its sources have finished. -/
def joined : Topology :=
  let ids : List TaskId := [⟨sampleSource, 0⟩, ⟨sampleSource, 1⟩,
    ⟨sampleSink, 0⟩, ⟨sampleSink, 1⟩]
  ((ofJobGraph joinedGraph).toOption.getD { graph := joinedGraph }).runAll
    (ids.flatMap fun id => [.attachAttempt id, .transition id
      (if id.vertex = sampleSource then .finished else .running)])

theorem reachable_joined : joined.Reachable :=
  (Reachable.built built_joinedGraph (eq_ok_getD rfl _)).runAll _

theorem plan_eq_plan_job_joined :
    ∃ p, plan joined true .job = .ok p ∧ p.fullyFinished = [sampleSource] ∧
      plan joined true (.group "g") = .ok p ∧
      plan joined true (.rescale sampleSink [sampleSource]) = .ok p := by
  obtain ⟨hgroup, hrescale⟩ :=
    plan_eq_plan_job reachable_joined (by decide +kernel) true
  have hfinished : (plan joined true .job).toOption.map (·.fullyFinished) =
      some [sampleSource] := by decide +kernel
  have hstate : joined.InState ⟨sampleSource, 0⟩ .finished :=
    (reachable_joined.whole.wired.indexed.inState_iff (i := 0)
      (by decide +kernel)).mpr (by decide +kernel)
  rw [hgroup "g" (by decide +kernel),
    hrescale ⟨_, hstate⟩ sampleSink [sampleSource] (by decide +kernel)]
  cases hp : plan joined true .job with
  | error f =>
    rw [hp] at hfinished
    cases hfinished
  | ok p =>
    rw [hp] at hfinished
    exact ⟨p, rfl, Option.some.inj hfinished, rfl, rfl⟩

end ControlPlane.Checkpoint
