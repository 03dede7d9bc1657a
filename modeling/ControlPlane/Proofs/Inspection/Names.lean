import Mathlib
import ControlPlane.Inspection.CommandLine
import ControlPlane.Proofs.Checkpoint.Lists
import ControlPlane.Proofs.Failover
import ControlPlane.Proofs.Inspection.Opened
import ControlPlane.Proofs.Job.Known

/-!
# Names of tasks in reports

A report calls a task by the name of its vertex, a colon and its number.
The colon is the first one, as names of vertices have none, and no two
vertices share a name. So a name is read as the task that it was written
for, also where ids have been drawn anew: whatever a report prints can be
asked about next. All this is about the failover command by itself. That the
command line hands a text to it as it is stands at the end.
-/

namespace ControlPlane

namespace Inspection

open ControlPlane.Topology ControlPlane.FailoverStrategy

/-! ## What reports print -/

namespace Report

/-- The lists of tasks in a report. -/
def taskLists : Report → List (List String)
  | regions report => report.regions.map (·.tasks)
  | plan report =>
    [report.trigger, report.waitFor, report.commitTo, report.finished]
  | failover report => [[report.failed], report.restart]

/-- The vertices in a report: those of which no task is left running. -/
def vertices : Report → List String
  | plan report => report.fullyFinished
  | _ => []

end Report

/-- The failover command takes a text for a task that failed, whatever ids
the job of the definition was opened with, and reports the task by a name
that it has. -/
def Accepts (d : JobDefinition) (text name : String) : Prop :=
  ∀ supply job, supply.Fresh d.vertices.length d.edges.length →
    Job.ofDefinition supply d = .ok job → ∀ config path, ∃ report,
      job.report config (.failover path text none) = .ok (.failover report) ∧
        report.failed = name

/-- The texts are the names of tasks of the job, of each at most once. -/
def Job.Lists (job : Job) (names : List String) : Prop :=
  ∃ ids : List TaskId, ids.Nodup ∧ (∀ id ∈ ids, job.topology.HasTask id) ∧
    names.Perm (ids.map job.taskKey)

/-- The names of tasks tell them apart, and are understood when they come
back. -/
structure NamesReadBack (d : JobDefinition) (job : Job) : Prop where
  /-- The name of a task is read as the task. -/
  taskId : ∀ id, job.topology.HasTask id →
    job.loaded.taskId (job.taskKey id) = .ok id
  inj : ∀ a b, job.topology.HasTask a → job.topology.HasTask b →
    job.taskKey a = job.taskKey b → a = b
  lists : ∀ config command report, job.report config command = .ok report →
    ∀ names ∈ report.taskLists, job.Lists names
  tasks : ∀ config command report, job.report config command = .ok report →
    ∀ names ∈ report.taskLists, ∀ name ∈ names, Accepts d name name
  /-- The name of a vertex is taken for its first task. -/
  vertices : ∀ config command report,
    job.report config command = .ok report →
    ∀ name ∈ report.vertices, Accepts d name (name ++ ":0")

/-! ## Tasks that are named -/

namespace Job.Opened

variable {d : JobDefinition} {supply : IdSupply} {job : Job}
  (h : job.Opened d supply)

include h

/-- A task that is named can be restarted. -/
theorem exists_failoverReport {id : TaskId} (hid : job.topology.HasTask id)
    {text : String} (htext : job.loaded.taskId text = .ok id)
    (config : Config) :
    ∃ report, job.failoverReport config text none = .ok report ∧
      report.failed = job.taskKey id := by
  have hlost : ∀ p ∈ (FailureCause.task reported).partition?,
      job.topology.HasPartition p := nofun
  obtain ⟨x, ids, hrestart⟩ := FailoverStrategy.exists_tasksToRestart
    h.reachable hid hlost (fun _ => true) (.start config.failover)
  have hcontrol : ((JobState.start job.topology config fun _ => true).control
      (·.handleFailure id (.task reported))).2 = .ok ids := by
    simp only [JobState.control, Request.submit, JobState.handleFailure,
      JobState.start, hrestart]
  refine ⟨{
    job := job.name
    failed := job.taskKey id
    cause := (FailureCause.task reported).message
    restart := (ids.map job.taskKey).mergeSort (· ≤ ·) }, ?_, rfl⟩
  simp only [failoverReport, htext, within, Except.mapError, cause, hcontrol,
    bind, Except.bind, pure, Except.pure]

end Job.Opened

/-- A text is accepted if a vertex of the definition is split off, and a
subtask that it has or none. -/
theorem accepts_of_split {d : JobDefinition} (hok : d.validate = .ok ())
    {spec : VertexSpec} (hspec : spec ∈ d.vertices) {text : String}
    {subtask : Option Nat}
    (hsplit : splitTaskKey text = .ok (spec.name, subtask))
    (hlt : subtask.getD 0 < d.parallelismOf spec) :
    Accepts d text (spec.name ++ ":" ++ toString (subtask.getD 0)) := by
  intro supply job hfresh hjob config path
  have h := opened_of_ofDefinition hok hfresh hjob
  obtain ⟨v, hv, -, hname, hparallelism⟩ :=
    h.drawn.exists_vertex_of_mem h.valid hspec
  have htext := h.taskId_of_split hv (hname ▸ hsplit)
  have hid : job.topology.HasTask ⟨v.id, subtask.getD 0⟩ :=
    h.hasTask_iff.mpr ⟨v, hv, rfl, hparallelism ▸ hlt⟩
  obtain ⟨report, hreport, hfailed⟩ := h.exists_failoverReport hid htext config
  refine ⟨report, ?_, ?_⟩
  · rw [Job.report, hreport]
    rfl
  · rw [hfailed, h.taskKey_eq hv, hname]

namespace Job.Opened

variable {d : JobDefinition} {supply : IdSupply} {job : Job}
  (h : job.Opened d supply)

include h

/-- A task that a report lists has a name in the definition. -/
theorem accepts_taskKey (hok : d.validate = .ok ())
    (hwords : ∀ v ∈ d.vertices, d.parallelismOf v < 2 ^ 32) {id : TaskId}
    (hid : job.topology.HasTask id) :
    Accepts d (job.taskKey id) (job.taskKey id) := by
  obtain ⟨vertex, subtask⟩ := id
  obtain ⟨v, hv, rfl, hlt⟩ := h.hasTask_iff.mp hid
  obtain ⟨spec, hspec, hname, hparallelism⟩ := h.exists_spec hv
  have hsubtask : subtask < d.parallelismOf spec := hparallelism ▸ hlt
  have hnumeral : Text.numeral32 (toString subtask) = .ok subtask :=
    Text.numeral_toString (hsubtask.trans (hwords spec hspec))
  rw [h.taskKey_eq hv, ← hname]
  exact accepts_of_split hok hspec
    (splitTaskKey_append (hname ▸ h.colon_not_mem hv) hnumeral) hsubtask

/-- A vertex that a report lists has a name in the definition. -/
theorem accepts_vertexName (hok : d.validate = .ok ()) {v : JobVertex}
    (hv : v ∈ job.loaded.graph.vertices) :
    Accepts d (job.vertexName v.id) (job.vertexName v.id ++ ":0") := by
  obtain ⟨spec, hspec, hname, -⟩ := h.exists_spec hv
  have hvertex : job.vertexName v.id = spec.name := by
    rw [vertexName, Std.TreeMap.getD_eq_getD_getElem?, h.names v hv, hname]
    rfl
  have hfirst : spec.name ++ ":0" = spec.name ++ ":" ++ toString 0 := by
    rw [String.append_assoc]
    rfl
  rw [hvertex, hfirst]
  exact accepts_of_split hok hspec
    (splitTaskKey_of_not_mem (hname ▸ h.colon_not_mem hv))
    (h.valid.parallelism spec hspec)

end Job.Opened

/-! ## Lists of tasks -/

section Lists

variable {t : Topology}

theorem nodup_ascending {α : Type*} [Ord α] [Std.TransOrd α] (xs : List α) :
    (ascending xs).Nodup := by
  refine (pairwise_ascending xs).imp ?_
  rintro x _ hlt rfl
  simp at hlt

theorem hasTask_of_mem {task : Task} (h : task ∈ t.tasks) :
    t.HasTask task.id := by
  obtain ⟨i, hi⟩ := Array.mem_iff_getElem?.mp h
  exact ⟨i, taskIdAt_of_getElem? hi⟩

theorem hasTask_of_mem_tasksOf {positions : List Nat} {id : TaskId}
    (h : id ∈ (t.tasksOf positions).map (·.id)) : t.HasTask id := by
  obtain ⟨task, htask, rfl⟩ := List.mem_map.mp h
  obtain ⟨i, -, hi⟩ := List.mem_filterMap.mp htask
  exact hasTask_of_mem (Array.mem_iff_getElem?.mpr ⟨i, hi⟩)

/-- Tasks at different positions have different ids. -/
theorem nodup_ids_tasksOf (h : t.Indexed) {positions : List Nat}
    (hpositions : positions.Nodup) :
    ((t.tasksOf positions).map (·.id)).Nodup := by
  have hids : (t.tasksOf positions).map (·.id) =
      positions.filterMap t.taskIdAt := by
    rw [tasksOf, List.map_filterMap]
    rfl
  rw [hids]
  exact hpositions.filterMap fun i j id hi hj => h.taskId_inj hi hj

/-- The tasks that restart are tasks of the job, and so is the one that has
failed. -/
theorem hasTask_of_tasksToRestart {x : FailoverStrategy}
    {isAvailable : PartitionId → Bool} {failed : TaskId}
    {cause : FailureCause} {ids : List TaskId} (h : t.Reachable)
    (hok : (x.tasksToRestart t isAvailable failed cause).2 = .ok ids) :
    t.HasTask failed ∧ ids.Nodup ∧ ∀ id ∈ ids, t.HasTask id := by
  have hindexed := h.whole.wired.indexed
  obtain ⟨⟨i, hi⟩, regions, rfl⟩ : (∃ i, t.taskAt failed = .ok i) ∧
      ∃ regions, ids = t.scheduledIn regions := by
    cases x with
    | full =>
      obtain ⟨i, hi, hret⟩ := bind_eq_ok_iff.mp hok
      exact ⟨⟨i, hi⟩, _, (Except.ok.inj hret).symm⟩
    | region lost =>
      dsimp only [tasksToRestart, restartRegions] at hok
      split at hok
      · cases hok
      · rename_i origin horigin
        obtain ⟨i, hi, -⟩ := bind_eq_ok_iff.mp horigin
        refine ⟨⟨i, hi⟩, ?_⟩
        split at hok
        · exact ⟨_, (Except.ok.inj hok).symm⟩
        · split at hok
          · cases hok
          · exact ⟨_, (Except.ok.inj hok).symm⟩
  refine ⟨⟨i, hindexed.taskAt_eq_ok.mp hi⟩, nodup_ascending _,
    fun id hid => ?_⟩
  obtain ⟨j, task, -, hj, rfl, -⟩ := h.regioned.mem_scheduledIn.mp hid
  exact hasTask_of_mem (Array.mem_iff_getElem?.mpr ⟨j, hj⟩)

end Lists

/-! ## Reports -/

section Reports

variable {job : Job} {config : Config}

theorem plan_of_controlCheckpoint {state : JobState}
    {scope : Checkpoint.Scope} {p : Checkpoint.Plan}
    (hok : (state.controlCheckpoint scope).2 = .ok p) :
    Checkpoint.plan state.topology state.allowFinished scope = .ok p := by
  simp only [JobState.controlCheckpoint, Request.submit,
    JobState.planCheckpoint] at hok
  cases hplan : Checkpoint.plan state.topology state.allowFinished scope with
  | error e =>
    rw [hplan] at hok
    cases hok
  | ok q =>
    rw [hplan] at hok
    exact hok

theorem handleFailure_of_control {state : JobState} {failed : TaskId}
    {cause : FailureCause} {ids : List TaskId}
    (hok : (state.control (·.handleFailure failed cause)).2 = .ok ids) :
    (state.failover.tasksToRestart state.topology state.isAvailable failed
      cause).2 = .ok ids := by
  simp only [JobState.control, Request.submit, JobState.handleFailure] at hok
  cases hrestart : state.failover.tasksToRestart state.topology
      state.isAvailable failed cause with
  | mk x result =>
    rw [hrestart] at hok
    cases result with
    | error e => cases hok
    | ok ids' =>
      cases hok
      rfl

/-- The lists of a plan are written with the names of its tasks. -/
theorem of_planReport {group : Option String} {report : PlanReport}
    (hok : job.planReport config group = .ok report) :
    ∃ allow scope p, Checkpoint.plan job.topology allow scope = .ok p ∧
      report.trigger = (p.trigger.map (·.task)).map job.taskKey ∧
      report.waitFor = (p.waitFor.map (·.task)).map job.taskKey ∧
      report.commitTo = p.commitTo.map job.taskKey ∧
      report.finished = (p.finished.map (·.task)).map job.taskKey ∧
      report.fullyFinished = p.fullyFinished.map job.vertexName := by
  obtain ⟨p, hp, hret⟩ := bind_eq_ok_iff.mp hok
  cases hret
  refine ⟨_, _, p,
    plan_of_controlCheckpoint (mapError_eq_ok_iff.mp hp), ?_, ?_, rfl, ?_, rfl⟩
  all_goals
    rw [List.map_map]
    rfl

/-- The tasks to restart are written with their names, in order. -/
theorem of_failoverReport {text : String} {lost : Option String}
    {report : FailoverReport} (ht : job.topology.Reachable)
    (hok : job.failoverReport config text lost = .ok report) :
    ∃ failed, ∃ ids : List TaskId, job.topology.HasTask failed ∧ ids.Nodup ∧
      (∀ id ∈ ids, job.topology.HasTask id) ∧
      report.failed = job.taskKey failed ∧
      report.restart.Perm (ids.map job.taskKey) := by
  obtain ⟨failed, -, hok⟩ := bind_eq_ok_iff.mp hok
  obtain ⟨cause, -, hok⟩ := bind_eq_ok_iff.mp hok
  obtain ⟨ids, hids, hret⟩ := bind_eq_ok_iff.mp hok
  cases hret
  have hrestart := handleFailure_of_control (mapError_eq_ok_iff.mp hids)
  obtain ⟨hfailed, hnodup, hknown⟩ := hasTask_of_tasksToRestart ht hrestart
  exact ⟨failed, ids, hfailed, hnodup, hknown, rfl, List.mergeSort_perm _ _⟩

end Reports

namespace Job.Opened

variable {d : JobDefinition} {supply : IdSupply} {job : Job}
  (h : job.Opened d supply)

include h

theorem lists_map_of_sublist {ids : List TaskId}
    (hids : ids.Sublist
      (job.topology.operators.flatMap (Checkpoint.idsOf job.topology))) :
    job.Lists (ids.map job.taskKey) := by
  refine ⟨ids, (Checkpoint.nodup_flatMap_idsOf h.reachable.whole).sublist hids,
    fun id hid => ?_, .refl _⟩
  obtain ⟨o, -, hmem⟩ := List.mem_flatMap.mp (hids.subset hid)
  exact hasTask_of_mem_tasksOf hmem

theorem lists_regionTasks (r : RegionIndex) :
    job.Lists ((job.topology.regionTasks r).map (job.taskKey ·.id)) := by
  rw [regionTasks]
  cases hr : job.topology.regions[r]? with
  | none => exact ⟨[], List.nodup_nil, nofun, .refl _⟩
  | some region =>
    have hascending := h.reachable.regioned.tasks_ascending r region hr
    refine ⟨_, nodup_ids_tasksOf h.reachable.whole.wired.indexed
      (hascending.imp Nat.ne_of_lt), fun id => hasTask_of_mem_tasksOf, ?_⟩
    rw [List.map_map]
    exact .refl _

/-- Every list in a report is one of tasks of the job. -/
theorem lists_of_report {config : Config} {command : Command}
    {report : Report} (hok : job.report config command = .ok report) :
    ∀ names ∈ report.taskLists, job.Lists names := by
  cases command with
  | regions path =>
    cases hok
    intro names hnames
    simp only [Report.taskLists, regionsReport, List.map_map,
      List.mem_map] at hnames
    obtain ⟨region, -, rfl⟩ := hnames
    exact h.lists_regionTasks region.index
  | plan path group =>
    obtain ⟨report, hreport, rfl⟩ := map_eq_ok_iff.mp hok
    obtain ⟨allow, scope, p, hp, htrigger, hwaitFor, hcommitTo, hfinished, -⟩ :=
      of_planReport hreport
    have hlisted := Checkpoint.listed_of_plan h.reachable.whole.toSound hp
    simp only [Report.taskLists, htrigger, hwaitFor, hcommitTo, hfinished,
      List.forall_mem_cons]
    exact ⟨h.lists_map_of_sublist hlisted.trigger,
      h.lists_map_of_sublist hlisted.waitFor,
      h.lists_map_of_sublist (hlisted.commitTo ▸ hlisted.waitFor),
      h.lists_map_of_sublist hlisted.finished, nofun⟩
  | failover path text lost =>
    obtain ⟨report, hreport, rfl⟩ := map_eq_ok_iff.mp hok
    obtain ⟨failed, ids, hid, hnodup, hknown, hfailed, hrestart⟩ :=
      of_failoverReport h.reachable hreport
    simp only [Report.taskLists, hfailed, List.forall_mem_cons]
    exact ⟨⟨[failed], List.nodup_singleton _, by simpa using hid, .refl _⟩,
      ⟨ids, hnodup, hknown, hrestart⟩, nofun⟩

variable (hwords : ∀ v ∈ d.vertices, d.parallelismOf v < 2 ^ 32)

include hwords

theorem taskKey_inj {a b : TaskId} (ha : job.topology.HasTask a)
    (hb : job.topology.HasTask b) (hab : job.taskKey a = job.taskKey b) :
    a = b := by
  have hread := h.taskId_taskKey hwords ha
  rw [hab, h.taskId_taskKey hwords hb] at hread
  exact (Except.ok.inj hread).symm

theorem namesReadBack (hok : d.validate = .ok ()) : NamesReadBack d job where
  taskId _ := h.taskId_taskKey hwords
  inj _ _ := h.taskKey_inj hwords
  lists _ _ _ := h.lists_of_report
  tasks _ _ _ hreport names hnames name hname := by
    obtain ⟨ids, -, hknown, hperm⟩ := h.lists_of_report hreport names hnames
    obtain ⟨id, hid, rfl⟩ := List.mem_map.mp (hperm.mem_iff.mp hname)
    exact h.accepts_taskKey hok hwords (hknown id hid)
  vertices _ command _ hreport name hname := by
    cases command with
    | regions path =>
      cases hreport
      cases hname
    | plan path group =>
      obtain ⟨plan, hplan, rfl⟩ := map_eq_ok_iff.mp hreport
      obtain ⟨allow, scope, p, hp, -, -, -, -, hfully⟩ := of_planReport hplan
      have hlisted := Checkpoint.listed_of_plan h.reachable.whole.toSound hp
      rw [Report.vertices, hfully] at hname
      obtain ⟨id, hid, rfl⟩ := List.mem_map.mp hname
      have hvertex := h.reachable.whole.ids.mem_iff.mp
        (hlisted.fullyFinished.subset hid)
      rw [h.graph] at hvertex
      obtain ⟨v, hv, rfl⟩ := List.mem_map.mp hvertex
      exact h.accepts_vertexName hok hv
    | failover path text lost =>
      obtain ⟨report, -, rfl⟩ := map_eq_ok_iff.mp hreport
      cases hname

end Job.Opened

/-! ## Definitions that pass the checks -/

/-- The job of a definition that passes the checks can be opened if its graph
and its topology can be built. The names of its tasks are read as the tasks,
and every name in a report is accepted as that of a failed task. -/
theorem namesReadBack_of_validate {d : JobDefinition}
    (hok : d.validate = .ok ()) {supply : IdSupply}
    (hfresh : supply.Fresh d.vertices.length d.edges.length)
    (hwords : ∀ v ∈ d.vertices, d.parallelismOf v < 2 ^ 32)
    {loaded : LoadedJob} (hload : d.load supply = .ok loaded) {t : Topology}
    (ht : ofJobGraph loaded.graph = .ok t) :
    ∃ job, Job.ofDefinition supply d = .ok job ∧ job.loaded = loaded ∧
      (∀ i, job.topology.taskIdAt i = t.taskIdAt i) ∧
      NamesReadBack d job := by
  obtain ⟨job, hjob, hloaded, hids⟩ := exists_ofDefinition hok hfresh hload ht
  exact ⟨job, hjob, hloaded, hids,
    (opened_of_ofDefinition hok hfresh hjob).namesReadBack hwords hok⟩

open JobDefinition in
/-- The names in reports on the small definition read back. -/
theorem namesReadBack_sampleDefinition :
    sampleDefinition.validate = .ok () ∧
      (IdSupply.sequential 0).Fresh 2 1 ∧
      (∀ v ∈ sampleDefinition.vertices,
        sampleDefinition.parallelismOf v < 2 ^ 32) ∧
      ∃ loaded t job, sampleDefinition.load (.sequential 0) = .ok loaded ∧
        ofJobGraph loaded.graph = .ok t ∧
        Job.ofDefinition (.sequential 0) sampleDefinition = .ok job ∧
        NamesReadBack sampleDefinition job := by
  have hok : sampleDefinition.validate = .ok () := by decide +kernel
  have hfresh : (IdSupply.sequential 0).Fresh 2 1 :=
    ⟨by decide +kernel, by decide +kernel⟩
  have hwords : ∀ v ∈ sampleDefinition.vertices,
      sampleDefinition.parallelismOf v < 2 ^ 32 := by
    decide +kernel
  have hexpanded : ((sampleDefinition.load (.sequential 0)).toOption.map
      fun loaded => (ofJobGraph loaded.graph).isOk) = some true := by
    decide +kernel
  obtain ⟨loaded, t, hload, ht⟩ := exists_of_expanded hexpanded
  obtain ⟨job, hjob, -, -, hnames⟩ :=
    namesReadBack_of_validate hok hfresh hwords hload ht
  exact ⟨hok, hfresh, hwords, loaded, t, job, hload, ht, hjob, hnames⟩

/-- The names of the four tasks, which are one region. -/
example : ((Job.ofDefinition (.sequential 0)
    JobDefinition.sampleDefinition).toOption.map fun job =>
      job.regionsReport.regions.map (·.tasks)) =
    some [["source:0", "source:1", "sink:0", "sink:1"]] := by
  decide +kernel

/-! ## The command line -/

theorem ofArgument_vertex (text : String) :
    Token.ofArgument ("--vertex=" ++ text) = .long "vertex" (some text) := by
  have hchars : ("--vertex=" ++ text).toList =
      '-' :: '-' :: 'v' :: 'e' :: 'r' :: 't' :: 'e' :: 'x' :: '=' ::
        text.toList := by
    simp
  rw [Token.ofArgument, hchars]
  simp [List.span_eq_takeWhile_dropWhile]

/-- A text that is given for the task gets to the failover command as it is,
whichever characters it has. -/
theorem ofArguments?_failover {path : String} (hpath : path ≠ "")
    (hplain : Token.ofArgument path = .plain path) (text : String) :
    Invocation.ofArguments? ["failover", path, "--vertex=" ++ text] =
      some (.run false (.failover path text none)) := by
  have hverb : Token.ofArgument "failover" = .plain "failover" := by
    decide +kernel
  simp [Invocation.ofArguments?, readLine, hverb, readCommand, readArguments,
    hplain, ofArgument_vertex, Arguments.setPath, Arguments.setValue,
    Arguments.command?, Verb.ofName?, Verb.name, Verb.options, hpath]

end Inspection

end ControlPlane
