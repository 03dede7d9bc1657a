import Mathlib
import ControlPlane.Proofs.Checkpoint.Barriers
import ControlPlane.Proofs.Checkpoint.Drafts

/-!
# Checkpoints of a snapshot group

A checkpoint of a group waits for its members and all that is downstream of
them, but only finished members make it leave finished tasks out. While
everything runs, the barrier gets to every task waited for. Once tasks of the
scope have finished, there is a plan if a member is among them, and none if
all of them are only downstream of the members.
-/

namespace ControlPlane.Checkpoint

open ControlPlane.Topology

section Groups

variable {t : Topology} {name : String} {allow : Bool} {p : Plan}

/-- A group with a member can be planned for. -/
theorem exists_targets_group (h : t.Whole)
    (hgroup : ∃ m, t.graph.IsMember name m) :
    ∃ ts, targets t (.group name) = .ok ts := by
  obtain ⟨m, v, hv, -, hname⟩ := hgroup
  obtain ⟨o, ho, -, hov⟩ := h.exists_operator hv
  have hany : t.operators.any (·.snapshotGroup = some name) = true := by
    refine List.any_eq_true.mpr ⟨o, ho, decide_eq_true ?_⟩
    rw [hov]
    exact hname
  rw [targets, if_pos hany]
  exact ⟨_, rfl⟩

theorem exists_currentAt {i : Nat} (hi : i < t.tasks.size)
    (hattempt : t.attemptAt i ≠ none) : ∃ a, currentAt t i = some a := by
  obtain ⟨id, hid⟩ := exists_taskIdAt hi
  obtain ⟨a, ha⟩ := Option.ne_none_iff_exists'.mp hattempt
  exact ⟨⟨id, a.number⟩, currentAt_eq_some.mpr ⟨hid, a, ha, rfl⟩⟩

/-- A draft is a plan if all tasks waited for run. -/
theorem Draft.plan_eq_ok {scope : Scope} (hp : Draft t allow scope p)
    (hrunning : ∀ a ∈ p.waitFor, t.InState a.task .running) :
    plan t allow scope = .ok p := by
  have hknown : ∀ a ∈ p.waitFor, ∃ task, t.task a.task = .ok task :=
    fun a ha => (hrunning a ha).imp fun _ htask => htask.1
  rcases checkRunning_cases hknown with hok | ⟨a, ha, hnot, -⟩
  · rw [hp.plan_eq, hok]
    rfl
  · exact absurd (hrunning a ha) hnot

/-- A draft is no plan if some task waited for does not run. -/
theorem Draft.plan_eq_error (h : t.Indexed) {scope : Scope}
    (hp : Draft t allow scope p)
    (hnot : ∃ a ∈ p.waitFor, ¬ t.InState a.task .running) :
    ∃ a ∈ p.waitFor, ¬ t.InState a.task .running ∧ plan t allow scope =
      .error (.notRunning (taskLabel t a.task) t.graph.name) := by
  rcases checkRunning_cases (hp.known h) with
    hok | ⟨a, ha, hstopped, herror⟩
  · obtain ⟨a, ha, hstopped⟩ := hnot
    exact absurd (inState_of_checkRunning hok a ha) hstopped
  · refine ⟨a, ha, hstopped, ?_⟩
    rw [hp.plan_eq, herror]
    rfl

/-! ## Who is waited for -/

/-- The plan waits for the running tasks of the scope. -/
def WaitsForRunning (t : Topology) (scope : Scope) (p : Plan) : Prop :=
  ∀ a, a ∈ p.waitFor ↔ Planned t.graph scope a.task.vertex ∧
    t.InState a.task .running ∧ ∃ i, currentAt t i = some a

theorem WaitsForRunning.isWaitedFor_iff {scope : Scope}
    (hp : WaitsForRunning t scope p) (h : t.Indexed) {id : TaskId} :
    p.isWaitedFor id = true ↔
      Planned t.graph scope id.vertex ∧ t.InState id .running := by
  simp only [Plan.isWaitedFor, List.any_eq_true, decide_eq_true_eq]
  constructor
  · rintro ⟨a, ha, rfl⟩
    obtain ⟨hplanned, hrunning, -⟩ := (hp a).mp ha
    exact ⟨hplanned, hrunning⟩
  · rintro ⟨hplanned, hrunning⟩
    obtain ⟨i, hi, hstate⟩ := h.exists_of_inState hrunning
    obtain ⟨a, ha⟩ := exists_currentAt_of_isActive
      (isActive_of_state hstate (by decide) (by decide))
    have hid := (currentAt_eq_some.mp ha).1
    rw [hi, Option.some.injEq] at hid
    subst hid
    exact ⟨a, (hp a).mpr ⟨hplanned, hrunning, i, ha⟩, rfl⟩

theorem WaitsForRunning.plan_eq_ok {scope : Scope}
    (hp : WaitsForRunning t scope p) (hdraft : Draft t allow scope p) :
    plan t allow scope = .ok p :=
  hdraft.plan_eq_ok fun a ha => ((hp a).mp ha).2.1

section States

variable (hstates : ∀ i id, t.taskIdAt i = some id →
  Planned t.graph (.group name) id.vertex →
  t.InState id .running ∨ t.InState id .finished)

include hstates

/-- Who has not finished runs. -/
theorem AfterFinish.waitsForRunning (h : t.Indexed)
    (hp : AfterFinish t (.group name) p) :
    WaitsForRunning t (.group name) p := by
  intro a
  rw [hp.waitFor]
  refine and_congr_right fun hplanned => ?_
  constructor
  · rintro ⟨i, ha, hactive⟩
    have hi := (currentAt_eq_some.mp ha).1
    refine ⟨(hstates i _ hi hplanned).resolve_right fun hfinished => ?_, i, ha⟩
    rw [h.inState_iff hi] at hfinished
    exact not_isActive_of_isTerminal (hfinished ▸ rfl) hactive
  · rintro ⟨hrunning, i, ha⟩
    rw [h.inState_iff (currentAt_eq_some.mp ha).1] at hrunning
    exact ⟨i, ha, isActive_of_state hrunning (by decide) (by decide)⟩

theorem WhileRunning.waitsForRunning (hp : WhileRunning t (.group name) p)
    (hnone : ∀ id, Planned t.graph (.group name) id.vertex →
      ¬ t.InState id .finished) : WaitsForRunning t (.group name) p := by
  intro a
  rw [hp.waitFor]
  refine and_congr_right fun hplanned => ?_
  constructor
  · rintro ⟨i, ha⟩
    have hi := (currentAt_eq_some.mp ha).1
    exact ⟨(hstates i _ hi hplanned).resolve_right (hnone _ hplanned), i, ha⟩
  · exact fun ⟨_, ha⟩ => ha

/-- If all tasks of the scope are waited for, one that has finished is found
not to run. -/
theorem Draft.exists_plan_eq_error (h : t.Indexed)
    (hp : Draft t allow (.group name) p)
    (hmade : WhileRunning t (.group name) p)
    (hstarted : ∀ i < t.tasks.size, ∃ a, currentAt t i = some a) {id : TaskId}
    (hplanned : Planned t.graph (.group name) id.vertex)
    (hfinished : t.InState id .finished) :
    ∃ id, Planned t.graph (.group name) id.vertex ∧ t.InState id .finished ∧
      plan t allow (.group name) =
        .error (.notRunning (taskLabel t id) t.graph.name) := by
  obtain ⟨i, hi, hstate⟩ := h.exists_of_inState hfinished
  obtain ⟨a, ha⟩ := hstarted i (lt_of_taskIdAt hi)
  have hid := (currentAt_eq_some.mp ha).1
  rw [hi, Option.some.injEq] at hid
  subst hid
  have hstopped : ¬ t.InState a.task .running := by
    rw [h.inState_iff hi, hstate]
    decide
  have hwaited : ∀ b ∈ p.waitFor, t.InState b.task .running ∨
      t.InState b.task .finished := by
    intro b hb
    obtain ⟨hb', j, hj⟩ := (hmade.waitFor b).mp hb
    exact hstates j _ (currentAt_eq_some.mp hj).1 hb'
  obtain ⟨b, hb, hnot, herror⟩ := hp.plan_eq_error h
    ⟨a, (hmade.waitFor a).mpr ⟨hplanned, i, ha⟩, hstopped⟩
  exact ⟨b.task, ((hmade.waitFor b).mp hb).1,
    (hwaited b hb).resolve_left hnot, herror⟩

end States

end Groups

/-- If every task in scope runs or has finished, there is a plan that waits
for those that run, as long as a member of the group has finished or no task
in scope has. If only tasks downstream of the members have finished, there is
none: one of these is found not to run. -/
theorem plan_group_of_running_or_finished {t : Topology} (h : t.Reachable)
    {name : String} (hgroup : ∃ m, t.graph.IsMember name m)
    (hstarted : ∀ i < t.tasks.size, t.attemptAt i ≠ none)
    (hstates : ∀ i id, t.taskIdAt i = some id →
      Planned t.graph (.group name) id.vertex →
      t.InState id .running ∨ t.InState id .finished) :
    ((∃ id, t.graph.IsMember name id.vertex ∧ t.InState id .finished) ∨
        (∀ id, Planned t.graph (.group name) id.vertex →
          ¬ t.InState id .finished) →
      ∃ p, plan t true (.group name) = .ok p ∧ ∀ id,
        p.isWaitedFor id = true ↔
          Planned t.graph (.group name) id.vertex ∧ t.InState id .running) ∧
    ((¬ ∃ id, t.graph.IsMember name id.vertex ∧ t.InState id .finished) →
      (∃ id, Planned t.graph (.group name) id.vertex ∧
        t.InState id .finished) →
      ∃ id, Planned t.graph (.group name) id.vertex ∧
        t.InState id .finished ∧ plan t true (.group name) =
          .error (.notRunning (taskLabel t id) t.graph.name)) := by
  have hindexed := h.whole.wired.indexed
  obtain ⟨ts, hts⟩ := exists_targets_group h.whole hgroup
  have hcurrent : ∀ i < t.tasks.size, ∃ a, currentAt t i = some a :=
    fun i hi => exists_currentAt hi (hstarted i hi)
  obtain ⟨p, hp⟩ := exists_draft true hcurrent h.whole hts fun _ => rfl
  constructor
  · intro hfinished
    have hwaits : WaitsForRunning t (.group name) p := by
      rcases hp.made with ⟨-, hmade⟩ | ⟨hnone, hmade⟩
      · exact hmade.waitsForRunning hstates hindexed
      · exact hmade.waitsForRunning hstates (hfinished.resolve_left hnone)
    exact ⟨p, hwaits.plan_eq_ok hp, fun id => hwaits.isWaitedFor_iff hindexed⟩
  · rintro hnone ⟨id, hplanned, hfinished⟩
    obtain ⟨-, hmade⟩ := hp.made.resolve_left fun hsome => hnone hsome.1
    exact hp.exists_plan_eq_error hstates hindexed hmade hcurrent hplanned
      hfinished

/-! ## A grouped job -/

/-- The operator in the middle of the grouped job. -/
def sampleMiddle : VertexId := ⟨⟨4⟩⟩

/-- A source, two tasks in the middle and a sink. -/
def groupedVertices : JobGraph :=
  let start : JobGraph := { name := "grouped" }
  ((start.addVertex sampleSource "source" 1).addVertex sampleMiddle "middle"
    2).addVertex sampleSink "sink" 1

/-- The tasks in the middle are a snapshot group. -/
def groupedMembers : JobGraph :=
  (groupedVertices.setSnapshotGroup sampleMiddle "g").toOption.getD
    groupedVertices

def groupedInput : JobGraph :=
  (groupedMembers.connect ⟨⟨5⟩⟩ sampleSource sampleMiddle .allToAll
    .pipelined).toOption.getD groupedMembers

def groupedGraph : JobGraph :=
  (groupedInput.connect ⟨⟨6⟩⟩ sampleMiddle sampleSink .allToAll
    .pipelined).toOption.getD groupedInput

theorem built_groupedGraph : groupedGraph.Built := by
  have hvertices : groupedVertices.Built :=
    .addVertex "sink" 1 (.addVertex "middle" 2 (.addVertex "source" 1
      (.empty "grouped") (by simp)) (by decide)) (by decide)
  have hmembers : groupedVertices.setSnapshotGroup sampleMiddle "g" =
    .ok groupedMembers := rfl
  have hinput : groupedMembers.connect ⟨⟨5⟩⟩ sampleSource sampleMiddle
    .allToAll .pipelined = .ok groupedInput := rfl
  have hgraph : groupedInput.connect ⟨⟨6⟩⟩ sampleMiddle sampleSink
    .allToAll .pipelined = .ok groupedGraph := rfl
  exact .connect (.connect (.setSnapshotGroup hvertices hmembers)
    (by decide) hinput) (by decide) hgraph

/-- The topology of the grouped job. -/
def grouped : Topology :=
  (ofJobGraph groupedGraph).toOption.getD { graph := groupedGraph }

theorem reachable_grouped : grouped.Reachable :=
  .built built_groupedGraph (eq_ok_getD rfl _)

/-- The grouped job with an attempt of every task, in a state of its own. -/
def groupedIn (state : TaskId → TaskState) : Topology :=
  let ids : List TaskId := [⟨sampleSource, 0⟩, ⟨sampleMiddle, 0⟩,
    ⟨sampleMiddle, 1⟩, ⟨sampleSink, 0⟩]
  grouped.runAll (ids.flatMap fun id =>
    [.attachAttempt id, .transition id (state id)])

theorem reachable_groupedIn (state : TaskId → TaskState) :
    (groupedIn state).Reachable :=
  reachable_grouped.runAll _

/-- One of the two members has finished, so the other one and the sink are
waited for. -/
theorem plan_group_memberFinished :
    let t := groupedIn fun id =>
      if id = ⟨sampleMiddle, 0⟩ then .finished else .running
    ∃ p, plan t true (.group "g") = .ok p ∧
      p.waitFor = [⟨⟨sampleMiddle, 1⟩, 0⟩, ⟨⟨sampleSink, 0⟩, 0⟩] ∧
      ∀ id, p.isWaitedFor id = true ↔
        Planned t.graph (.group "g") id.vertex ∧ t.InState id .running := by
  intro t
  have hreachable : t.Reachable := reachable_groupedIn _
  have hindexed := hreachable.whole.wired.indexed
  have hsize : t.tasks.size = 4 := by decide +kernel
  have hstates : ∀ i < 4, t.stateAt i = .running ∨ t.stateAt i = .finished := by
    decide +kernel
  have hid : t.taskIdAt 1 = some ⟨sampleMiddle, 0⟩ := by decide +kernel
  have hmember : t.graph.IsMember "g" sampleMiddle := by
    unfold JobGraph.IsMember
    decide +kernel
  have hfinished : t.InState ⟨sampleMiddle, 0⟩ .finished :=
    (hindexed.inState_iff hid).mpr (by decide +kernel)
  obtain ⟨p, hok, hwaited⟩ := (plan_group_of_running_or_finished hreachable
    ⟨_, hmember⟩ (by decide +kernel) fun i id hi _ => by
      rw [hindexed.inState_iff hi, hindexed.inState_iff hi]
      exact hstates i (hsize ▸ lt_of_taskIdAt hi)).1
    (.inl ⟨_, hmember, hfinished⟩)
  have hplan : (plan t true (.group "g")).toOption.map (·.waitFor) =
      some [⟨⟨sampleMiddle, 1⟩, 0⟩, ⟨⟨sampleSink, 0⟩, 0⟩] := by
    decide +kernel
  rw [hok] at hplan
  exact ⟨p, hok, Option.some.inj hplan, hwaited⟩

/-- The grouped job after its sink has finished. -/
def sinkFinished : Topology :=
  groupedIn fun id => if id = ⟨sampleSink, 0⟩ then .finished else .running

/-- Every task runs or has finished, but there is no plan for the group: the
sink is waited for. -/
theorem plan_group_sinkFinished :
    sinkFinished.Reachable ∧ sinkFinished.graph.IsMember "g" sampleMiddle ∧
      (∀ i < sinkFinished.tasks.size, sinkFinished.attemptAt i ≠ none) ∧
      (∀ i id, sinkFinished.taskIdAt i = some id →
        sinkFinished.InState id .running ∨
          sinkFinished.InState id .finished) ∧
      plan sinkFinished true (.group "g") =
        .error (.notRunning "sink (1/1)" "grouped") := by
  have hreachable : sinkFinished.Reachable := reachable_groupedIn _
  have hindexed := hreachable.whole.wired.indexed
  have hsize : sinkFinished.tasks.size = 4 := by decide +kernel
  have hstates : ∀ i < 4, sinkFinished.stateAt i = .running ∨
      sinkFinished.stateAt i = .finished := by
    decide +kernel
  refine ⟨hreachable, ?_, by decide +kernel, fun i id hi => ?_,
    by decide +kernel⟩
  · unfold JobGraph.IsMember
    decide +kernel
  · rw [hindexed.inState_iff hi, hindexed.inState_iff hi]
    exact hstates i (hsize ▸ lt_of_taskIdAt hi)

/-! ## While every task runs -/

/-- A task that is waited for gets the barrier from one that feeds it. -/
def Arrives (t : Topology) (p : Plan) (i j : TaskIndex) : Prop :=
  Waits t p j ∧ ∃ kind, t.Feeds i j kind

section Entry

variable {t : Topology} {name : String} {p : Plan}

/-- Some attempt in a list is of a task if the list has all attempts of its
vertex. -/
theorem any_task_iff {attempts : List TaskAttempt} {P : VertexId → Prop}
    (hstarted : ∀ i < t.tasks.size, ∃ a, currentAt t i = some a)
    (hmem : ∀ a, a ∈ attempts ↔
      P a.task.vertex ∧ ∃ i, currentAt t i = some a) (id : TaskId) :
    attempts.any (·.task = id) = true ↔
      (∃ i, t.taskIdAt i = some id) ∧ P id.vertex := by
  simp only [List.any_eq_true, decide_eq_true_eq]
  constructor
  · rintro ⟨a, ha, rfl⟩
    obtain ⟨hP, i, hi⟩ := (hmem a).mp ha
    exact ⟨⟨i, (currentAt_eq_some.mp hi).1⟩, hP⟩
  · rintro ⟨⟨i, hi⟩, hP⟩
    obtain ⟨a, ha⟩ := hstarted i (lt_of_taskIdAt hi)
    have hid := (currentAt_eq_some.mp ha).1
    rw [hi, Option.some.injEq] at hid
    subst hid
    exact ⟨a, (hmem a).mpr ⟨hP, i, ha⟩, rfl⟩

theorem any_task_at_iff {attempts : List TaskAttempt} {P : VertexId → Prop}
    (hany : ∀ id, attempts.any (·.task = id) = true ↔
      (∃ i, t.taskIdAt i = some id) ∧ P id.vertex) {i : Nat} {id : TaskId}
    (hid : t.taskIdAt i = some id) :
    (∃ id', t.taskIdAt i = some id' ∧
      attempts.any (·.task = id') = true) ↔ P id.vertex := by
  constructor
  · rintro ⟨id', hid', hmem⟩
    rw [hid, Option.some.injEq] at hid'
    exact hid' ▸ ((hany id').mp hmem).2
  · exact fun hP => ⟨id, hid, (hany id).mpr ⟨⟨i, hid⟩, hP⟩⟩

/-- What is downstream of a group is a member or comes right behind something
in the scope. -/
theorem exists_leadsTo_of_planned {g : JobGraph} {id : VertexId}
    (h : Planned g (.group name) id) : g.IsMember name id ∨
      ∃ a, g.LeadsTo a id ∧ Planned g (.group name) a := by
  refine h.imp_right ?_
  rintro ⟨m, hm, hpath⟩
  cases hpath with
  | single hlead => exact ⟨m, hlead, .inl hm⟩
  | tail hpath hlead => exact ⟨_, hlead, .inr ⟨m, hm, hpath⟩⟩

/-- A vertex in the scope has one in front that is in the scope as well, or
the barrier enters right in front of it or at itself. -/
theorem entered_of_planned {g : JobGraph} {id : VertexId}
    (h : Planned g (.group name) id) :
    (∃ a, g.LeadsTo a id ∧ Planned g (.group name) a) ∨
      (∃ a, g.LeadsTo a id ∧ Entered g (.group name) a) ∨
      Entered g (.group name) id := by
  rcases exists_leadsTo_of_planned h with hm | hbefore
  · by_cases hin : ∃ a, g.LeadsTo a id
    · obtain ⟨a, ha⟩ := hin
      by_cases hplanned : Planned g (.group name) a
      · exact .inl ⟨a, ha, hplanned⟩
      · exact .inr (.inl ⟨a, ha, .inr ⟨hplanned, id, hm, ha⟩⟩)
    · exact .inr (.inr (.inl ⟨hm, not_exists.mp hin⟩))
  · exact .inl hbefore

/-- Every task waited for gets the barrier from one that is triggered. -/
theorem exists_triggered_of_entered (h : t.Whole)
    (hwaits : ∀ {i id}, t.taskIdAt i = some id →
      (Waits t p i ↔ Planned t.graph (.group name) id.vertex))
    (htriggers : ∀ {i id}, t.taskIdAt i = some id →
      (Triggers t p i ↔ Entered t.graph (.group name) id.vertex))
    {i : Nat} (hi : Waits t p i) :
    ∃ j, Triggers t p j ∧ Relation.ReflTransGen (Arrives t p) j i := by
  -- Going back along what feeds a task comes to an end.
  induction i using h.wellFounded_feeds.induction with
  | _ i ih =>
    obtain ⟨id, hid, -⟩ := id hi
    rcases entered_of_planned ((hwaits hid).mp hi) with
      ⟨a, hlead, ha⟩ | ⟨a, hlead, ha⟩ | hentered
    · obtain ⟨j, id', kind, hj, rfl, hf⟩ := h.exists_feeds_of_leadsTo hid hlead
      obtain ⟨k, hk, hpath⟩ := ih j ⟨kind, hf⟩ ((hwaits hj).mpr ha)
      exact ⟨k, hk, hpath.tail ⟨hi, kind, hf⟩⟩
    · obtain ⟨j, id', kind, hj, rfl, hf⟩ := h.exists_feeds_of_leadsTo hid hlead
      exact ⟨j, (htriggers hj).mpr ha, .single ⟨hi, kind, hf⟩⟩
    · exact ⟨i, (htriggers hid).mpr hentered, .refl⟩

end Entry

/-- While every task runs, a checkpoint of a group with a member is planned.
It waits for the members and all that is downstream of them, the barrier
enters at the members without inputs and right in front of the other ones,
and it gets to every task waited for through such tasks only. -/
theorem plan_group_of_running {t : Topology} (h : t.Reachable) {name : String}
    (hgroup : ∃ m, t.graph.IsMember name m)
    (hrunning : ∀ i id, t.taskIdAt i = some id → t.InState id .running)
    (allow : Bool) :
    ∃ p, plan t allow (.group name) = .ok p ∧
      (∀ id, p.isWaitedFor id = true ↔ (∃ i, t.taskIdAt i = some id) ∧
        Planned t.graph (.group name) id.vertex) ∧
      (∀ id, p.isTriggered id = true ↔ (∃ i, t.taskIdAt i = some id) ∧
        ((t.graph.IsMember name id.vertex ∧
            ∀ a, ¬ t.graph.LeadsTo a id.vertex) ∨
          (¬ Planned t.graph (.group name) id.vertex ∧
            ∃ m, t.graph.IsMember name m ∧ t.graph.LeadsTo id.vertex m))) ∧
      ∀ i, Waits t p i →
        ∃ j, Triggers t p j ∧ Relation.ReflTransGen (Arrives t p) j i := by
  have hindexed := h.whole.wired.indexed
  have hstarted : ∀ i < t.tasks.size, ∃ a, currentAt t i = some a := by
    intro i hi
    obtain ⟨id, hid⟩ := exists_taskIdAt hi
    have hstate := (hindexed.inState_iff hid).mp (hrunning i id hid)
    exact exists_currentAt_of_isActive
      (isActive_of_state hstate (by decide) (by decide))
  have hnone : ¬ SomeFinished t (.group name) := by
    rintro ⟨id, -, hfinished⟩
    obtain ⟨i, hi, hstate⟩ := hindexed.exists_of_inState hfinished
    have hrun := (hindexed.inState_iff hi).mp (hrunning i id hi)
    rw [hstate] at hrun
    cases hrun
  obtain ⟨ts, hts⟩ := exists_targets_group h.whole hgroup
  obtain ⟨p, hp⟩ := exists_draft allow hstarted h.whole hts
    fun hsome => absurd hsome hnone
  obtain ⟨-, hmade⟩ := hp.made.resolve_left fun hsome => hnone hsome.1
  have hwaited := any_task_iff hstarted hmade.waitFor
  have htriggered := any_task_iff hstarted hmade.trigger
  refine ⟨p, hp.plan_eq_ok ?_, hwaited, htriggered, fun i hi => ?_⟩
  · intro a ha
    obtain ⟨-, i, hi⟩ := (hmade.waitFor a).mp ha
    exact hrunning i _ (currentAt_eq_some.mp hi).1
  · exact exists_triggered_of_entered h.whole (any_task_at_iff hwaited)
      (any_task_at_iff htriggered) hi

/-- In front of the group there is the source, which is triggered. -/
theorem plan_group_grouped :
    let t := groupedIn fun _ => .running
    ∃ p, plan t false (.group "g") = .ok p ∧
      p.trigger = [⟨⟨sampleSource, 0⟩, 0⟩] ∧
      p.waitFor = [⟨⟨sampleMiddle, 0⟩, 0⟩, ⟨⟨sampleMiddle, 1⟩, 0⟩,
        ⟨⟨sampleSink, 0⟩, 0⟩] ∧
      ∀ i, Waits t p i →
        ∃ j, Triggers t p j ∧ Relation.ReflTransGen (Arrives t p) j i := by
  intro t
  have hreachable : t.Reachable := reachable_groupedIn _
  have hindexed := hreachable.whole.wired.indexed
  have hsize : t.tasks.size = 4 := by decide +kernel
  have hstates : ∀ i < 4, t.stateAt i = .running := by decide +kernel
  have hmember : t.graph.IsMember "g" sampleMiddle := by
    unfold JobGraph.IsMember
    decide +kernel
  obtain ⟨p, hok, -, -, hpath⟩ := plan_group_of_running hreachable
    ⟨_, hmember⟩ (fun i id hi => (hindexed.inState_iff hi).mpr
      (hstates i (hsize ▸ lt_of_taskIdAt hi))) false
  have hplan : (plan t false (.group "g")).toOption.map
      (fun p => (p.trigger, p.waitFor)) = some ([⟨⟨sampleSource, 0⟩, 0⟩],
        [⟨⟨sampleMiddle, 0⟩, 0⟩, ⟨⟨sampleMiddle, 1⟩, 0⟩,
          ⟨⟨sampleSink, 0⟩, 0⟩]) := by
    decide +kernel
  rw [hok] at hplan
  obtain ⟨htrigger, hwait⟩ := Prod.mk.inj (Option.some.inj hplan)
  exact ⟨p, hok, htrigger, hwait, hpath⟩

end ControlPlane.Checkpoint
