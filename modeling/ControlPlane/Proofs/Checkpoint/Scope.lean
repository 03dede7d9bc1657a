import Mathlib
import ControlPlane.Proofs.Checkpoint.Tasks
import ControlPlane.Proofs.JobGraph.Reach

/-!
# The vertices of a scope

Which vertices a scope covers is said here by edges of the job graph, apart
from how it is searched for: the members of a snapshot group with everything
downstream of them, and what lies downstream of a vertex to be rescaled.
-/

namespace ControlPlane.Checkpoint

open ControlPlane.Topology

/-- The vertices that a plan covers once some tasks have finished. -/
def Planned (g : JobGraph) : Scope → VertexId → Prop
  | .group name, id => g.IsMember name id ∨
    ∃ m, g.IsMember name m ∧ Relation.TransGen g.LeadsTo m id
  | _, _ => True

/-- The vertices waited for while everything runs. -/
def Awaited (g : JobGraph) : Scope → VertexId → Prop
  | .rescale vertex blocked, id => id = vertex ∨
    (id ∉ blocked ∧ Relation.TransGen g.LeadsTo vertex id)
  | scope, id => Planned g scope id

/-- The vertices at which the barrier enters a scope while everything
runs. -/
def Entered (g : JobGraph) : Scope → VertexId → Prop
  | .job, id => ∀ a, ¬ g.LeadsTo a id
  | .group name, id =>
    (g.IsMember name id ∧ ∀ a, ¬ g.LeadsTo a id) ∨
      (¬ Planned g (.group name) id ∧
        ∃ m, g.IsMember name m ∧ g.LeadsTo id m)
  | .rescale _ blocked, id => id ∈ blocked

/-- The vertices whose finished tasks decide how a scope is planned. -/
def Decisive (g : JobGraph) : Scope → VertexId → Prop
  | .group name, id => g.IsMember name id
  | _, _ => True

/-- Some task of a decisive vertex has finished. -/
def SomeFinished (t : Topology) (scope : Scope) : Prop :=
  ∃ id, Decisive t.graph scope id.vertex ∧ t.InState id .finished

section Operators

variable {t : Topology} {o : Operator}

theorem isMember_iff (h : t.Sound) (ho : o ∈ t.operators) {name : String} :
    t.graph.IsMember name o.id ↔ o.snapshotGroup = some name := by
  obtain ⟨v, hv, hov⟩ := h.staffed.vertex o ho
  have hid : v.id = o.id := by
    rw [hov]
    rfl
  have hgroup : v.snapshotGroup = o.snapshotGroup := by
    rw [hov]
    rfl
  rw [← hgroup]
  constructor
  · rintro ⟨w, hw, hwid, hwgroup⟩
    exact h.graph.vertex_inj hw hv (hwid.trans hid.symm) ▸ hwgroup
  · exact fun hg => ⟨v, hv, hid, hg⟩

/-- The vertices of input operators are those that no edge leads to. -/
theorem isInput_iff (h : t.Sound) (ho : o ∈ t.operators) :
    o.isInput = true ↔ ∀ a, ¬ t.graph.LeadsTo a o.id := by
  obtain ⟨v, hv, hid, hinputs⟩ := h.staffed.inputs_eq ho
  rw [Operator.isInput, List.isEmpty_iff, ← hinputs]
  constructor
  · rintro hnil a ⟨e, he, -, htarget⟩
    have hmem : e ∈ t.graph.edges.filter (·.target = v.id) :=
      List.mem_filter.mpr ⟨he, by simpa [hid] using htarget⟩
    rw [h.graph.filter_target hv, hnil] at hmem
    cases hmem
  · intro hnone
    rw [List.eq_nil_iff_forall_not_mem]
    intro e he
    exact hnone e.producer ⟨e, JobGraph.mem_edges.mpr ⟨v, hv, he⟩, rfl,
      (h.graph.target v hv e he).trans hid⟩

theorem someFinished_iff (h : t.Sound) {scope : Scope} :
    SomeFinished t scope ↔ ∃ o ∈ t.operators, Decisive t.graph scope o.id ∧
      ∃ i ∈ o.tasks, t.stateAt i = .finished := by
  constructor
  · rintro ⟨id, hdecisive, hstate⟩
    obtain ⟨i, hi, hfinished⟩ := h.wired.indexed.exists_of_inState hstate
    obtain ⟨o, ho, hid⟩ := h.owned i id hi
    exact ⟨o, ho, hid ▸ hdecisive, i,
      (h.staffed.mem_tasks ho).mpr ⟨id, hi, hid.symm⟩, hfinished⟩
  · rintro ⟨o, ho, hdecisive, i, hi, hfinished⟩
    obtain ⟨id, hid, hv⟩ := (h.staffed.mem_tasks ho).mp hi
    exact ⟨id, hv ▸ hdecisive, (h.wired.indexed.inState_iff hid).mpr hfinished⟩

/-- The operators looked at for finished tasks are those of the decisive
vertices. -/
theorem hasFinishedTask_iff_someFinished (h : t.Sound) (scope : Scope) :
    hasFinishedTask t (match scope with
      | .group name => t.operators.filter (·.snapshotGroup = some name)
      | _ => t.operators) = true ↔ SomeFinished t scope := by
  rw [hasFinishedTask_iff, someFinished_iff h]
  cases scope with
  | job => simp [Decisive]
  | rescale vertex blocked => simp [Decisive]
  | group name =>
    simp only [List.mem_filter, decide_eq_true_eq, Decisive, and_assoc]
    refine exists_congr fun o => and_congr_right fun ho => ?_
    rw [isMember_iff h ho]

end Operators

/-! ## Targets -/

/-- What a target has to say of its operator. -/
structure Targets (t : Topology) (scope : Scope) (o : Operator)
    (target : Target) : Prop where
  operator : target.operator = o
  waited : target.waited = true ↔ Awaited t.graph scope o.id
  triggered : target.triggered = true ↔ Entered t.graph scope o.id

section Targets

variable {t : Topology} (h : t.Sound)

include h

theorem targets_groupTarget {o : Operator} (ho : o ∈ t.operators)
    (name : String) :
    Targets t (.group name) o (groupTarget t name
      (t.graph.snapshotMembers name)
      (t.graph.reachableFrom (t.graph.snapshotMembers name)) o) := by
  obtain ⟨v, hv, hid, -⟩ := h.staffed.inputs_eq ho
  have hmember : t.graph.IsMember name o.id ↔ o.snapshotGroup = some name :=
    isMember_iff h ho
  have hreached : o.id ∈ t.graph.reachableFrom
      (t.graph.snapshotMembers name) ↔
        ∃ m, t.graph.IsMember name m ∧
          Relation.TransGen t.graph.LeadsTo m o.id := by
    simp only [h.graph.mem_reachableFrom, JobGraph.mem_snapshotMembers]
  have hwaited : (groupTarget t name (t.graph.snapshotMembers name)
      (t.graph.reachableFrom (t.graph.snapshotMembers name)) o).waited = true ↔
        Planned t.graph (.group name) o.id := by
    simp only [groupTarget, Bool.or_eq_true, decide_eq_true_eq,
      Bool.and_eq_true, JobGraph.mem_snapshotMembers, hmember, hreached,
      Planned]
    tauto
  refine ⟨rfl, hwaited, ?_⟩
  have hfeeds : t.graph.feedsGroup v.id name = true ↔ _ :=
    h.graph.feedsGroup_iff hv
  rw [hid] at hfeeds
  have hself : ¬ Planned t.graph (.group name) o.id →
      ¬ t.graph.IsMember name o.id := fun hnot hm => hnot (.inl hm)
  show ((decide (o.snapshotGroup = some name) && o.isInput) ||
    (!(groupTarget t name (t.graph.snapshotMembers name)
      (t.graph.reachableFrom (t.graph.snapshotMembers name)) o).waited &&
        t.graph.feedsGroup o.id name)) = true ↔ _
  rw [Bool.or_eq_true, Bool.and_eq_true, Bool.and_eq_true,
    decide_eq_true_eq, ← hmember, isInput_iff h ho, Bool.not_eq_true',
    ← Bool.not_eq_true, hwaited, hfeeds, Entered]
  -- A vertex that is not planned is no member.
  exact or_congr_right (and_congr_right fun hnot => and_iff_right (hself hnot))

theorem targets_rescaleTarget (o : Operator) (vertex : VertexId)
    (blocked : List VertexId) :
    Targets t (.rescale vertex blocked) o (rescaleTarget vertex blocked
      (t.graph.reachableFrom [vertex]) o) where
  operator := rfl
  waited := by
    simp [rescaleTarget, h.graph.mem_reachableFrom, Awaited]
  triggered := by
    simp [rescaleTarget, Entered]

theorem targets_job {o : Operator} (ho : o ∈ t.operators) :
    Targets t .job o { operator := o, waited := true, triggered := o.isInput }
    where
  operator := rfl
  waited := by simp [Awaited, Planned]
  triggered := isInput_iff h ho

/-- The targets of a scope are the operators with their parts in it. -/
theorem exists_of_targets {scope : Scope} {ts : List Target}
    (hok : targets t scope = .ok ts) :
    ∃ f : Operator → Target, ts = t.operators.map f ∧
      ∀ o ∈ t.operators, Targets t scope o (f o) := by
  cases scope with
  | job =>
    cases hok
    exact ⟨_, rfl, fun o ho => targets_job h ho⟩
  | group name =>
    simp only [targets] at hok
    split at hok
    · cases hok
      exact ⟨_, rfl, fun o ho => targets_groupTarget h ho name⟩
    · cases hok
  | rescale vertex blocked =>
    simp only [targets] at hok
    split at hok
    · cases hok
    · cases hok
      exact ⟨_, rfl, fun o _ => targets_rescaleTarget h o vertex blocked⟩

end Targets

end ControlPlane.Checkpoint
