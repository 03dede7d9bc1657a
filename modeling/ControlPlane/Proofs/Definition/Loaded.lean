import Mathlib
import ControlPlane.Proofs.Definition.Drawn
import ControlPlane.Proofs.Definition.Keys
import ControlPlane.Proofs.Release.Reports
import ControlPlane.Proofs.Topology.CoLocation

/-!
# What can go wrong behind the checks

A definition that the checks accept can still be refused for three reasons:
an edge from a vertex to itself, a circle of edges, or co-located subtasks in
different regions. Whatever else is looked up on the way from the definition
to the initial states of its tasks is found.
-/

namespace ControlPlane

open ControlPlane.Topology

/-! ## Initial states -/

namespace LoadedJob

/-- A known task can be brought into any state. -/
theorem exists_applyState {t : Topology} (h : t.Whole) {id : TaskId}
    (hid : t.HasTask id) (state : TaskState) :
    ∃ t', applyState t id state = (t', .ok ()) ∧ t'.Whole ∧
      SameStaff t t' := by
  obtain ⟨i, hi⟩ := hid
  have hindexed := h.wired.indexed
  obtain ⟨task, hget, -⟩ := Option.map_eq_some_iff.mp hi
  have htask := (hindexed.task_eq_ok hi).mpr hget
  -- Only a task that was never started is given an attempt first.
  obtain ⟨t1, hstarted, hwhole, hstaff, hattempt⟩ : ∃ t1,
      (if task.attempt.isSome then Except.ok t
        else (t.attachAttempt id).map (·.1)) = .ok t1 ∧ t1.Whole ∧
        SameStaff t t1 ∧ t1.attemptAt i ≠ none := by
    cases hattempt : task.attempt with
    | some a =>
      exact ⟨t, rfl, h, .refl t, by simp [attemptAt, hget, hattempt]⟩
    | none =>
      obtain ⟨⟨t1, number⟩, hattach⟩ := hindexed.exists_attachAttempt hi
      obtain ⟨j, hj, ha⟩ := attempted_of_attachAttempt hindexed hattach
      obtain rfl : j = i := hindexed.taskId_inj hj hi
      refine ⟨t1, ?_, ha.whole h, ha.staff, by simp [ha.attemptAt]⟩
      rw [hattach]
      rfl
  rcases hwhole.wired.indexed.transition_cases id state with
    ⟨e, -, hnone⟩ | ⟨j, a, t2, hok, -, -, ha⟩
  · exact absurd (hnone i ((hstaff.taskIdAt i).trans hi)) hattempt
  · refine ⟨t2, ?_, ha.whole hwhole, hstaff.trans ha.staff⟩
    rw [applyState, htask]
    dsimp only
    rw [hstarted]
    dsimp only
    rw [hok]

theorem exists_applyStates {t : Topology} (h : t.Whole) {ids : List TaskId}
    (hids : ∀ id ∈ ids, t.HasTask id) (state : TaskState) (applied : Nat) :
    ∃ t', applyStates state ids applied t =
        (t', .ok (applied + ids.length)) ∧ t'.Whole ∧ SameStaff t t' := by
  induction ids generalizing applied t with
  | nil => exact ⟨t, rfl, h, .refl t⟩
  | cons id ids ih =>
    rw [List.forall_mem_cons] at hids
    obtain ⟨t1, hok, hwhole, hstaff⟩ := exists_applyState h hids.1 state
    obtain ⟨t2, hrest, hwhole', hstaff'⟩ := ih hwhole
      (fun other hother => (hids.2 other hother).sameStaff hstaff)
      (applied + 1)
    refine ⟨t2, ?_, hwhole', hstaff.trans hstaff'⟩
    rw [applyStates, hok, List.length_cons, Nat.add_comm ids.length,
      ← Nat.add_assoc]
    exact hrest

theorem tasksOfKey_congr {job : LoadedJob} {t t' : Topology}
    (h : SameStaff t t') (key : String) :
    job.tasksOfKey t' key = job.tasksOfKey t key := by
  simp only [tasksOfKey, Topology.operator, h.operators, h.operatorIndex]

/-- The initial states can be set if every key names known tasks. -/
theorem exists_applyKeys {job : LoadedJob} {t : Topology} (h : t.Whole)
    {keys : List (String × TaskState)}
    (hkeys : ∀ x ∈ keys, ∃ ids, job.tasksOfKey t x.1 = .ok ids ∧
      ∀ id ∈ ids, t.HasTask id)
    (applied : Nat) :
    ∃ t' n, job.applyKeys keys applied t = (t', .ok n) := by
  induction keys generalizing applied t with
  | nil => exact ⟨t, applied, rfl⟩
  | cons x keys ih =>
    obtain ⟨key, state⟩ := x
    rw [List.forall_mem_cons] at hkeys
    obtain ⟨⟨ids, hids, hknown⟩, hrest⟩ := hkeys
    obtain ⟨t1, hok, hwhole, hstaff⟩ :=
      exists_applyStates h hknown state applied
    obtain ⟨t2, n, hrun⟩ := ih hwhole (fun y hy => by
      obtain ⟨ids, hids, hknown⟩ := hrest y hy
      exact ⟨ids, (tasksOfKey_congr hstaff y.1).trans hids,
        fun id hid => (hknown id hid).sameStaff hstaff⟩)
      (applied + ids.length)
    refine ⟨t2, n, ?_⟩
    rw [applyKeys, hids]
    dsimp only
    rw [hok]
    exact hrun

/-- The tasks that a key names. -/
def named (job : LoadedJob) (t : Topology) (key : String) : Set TaskId :=
  {id | t.HasTask id ∧ ∃ v ∈ job.graph.vertices, v.id = id.vertex ∧
    KeyNames key v.name id.subtask}

end LoadedJob

namespace JobDefinition

variable {d : JobDefinition} {supply : IdSupply} {job : LoadedJob}
  {es : List (EdgeSpec × Nat)}

/-- The vertex of a name has the parallelism of the definition. -/
theorem Drawn.exists_vertex_of_mem
    (h : d.Drawn supply d.vertices.zipIdx es job) (hvalid : d.Valid)
    {v : VertexSpec} (hv : v ∈ d.vertices) : ∃ w ∈ job.graph.vertices,
      job.vertexIds[v.name]? = some w.id ∧ w.name = v.name ∧
        w.parallelism = d.parallelismOf v := by
  obtain ⟨id, hid⟩ := h.exists_vertexId hv
  obtain ⟨⟨v', n⟩, hentry, hname, w, hw, rfl, hbare⟩ := h.exists_vertex hid
  have hvv : v' = v := List.inj_on_of_nodup_map hvalid.names_nodup
    (List.fst_mem_of_mem_zipIdx hentry) hv hname
  subst hvv
  exact ⟨w, hw, hid, congrArg JobVertex.name hbare,
    congrArg JobVertex.parallelism hbare⟩

/-- Vertices are found by their names. -/
theorem Drawn.vertexIds_name
    (h : d.Drawn supply d.vertices.zipIdx es job) {w : JobVertex}
    (hw : w ∈ job.graph.vertices) :
    job.vertexIds[w.name]? = some w.id ∧ ∃ v ∈ d.vertices, v.name = w.name := by
  obtain ⟨⟨v, n⟩, hentry, hbare⟩ := h.exists_entry hw
  have hname : v.name = w.name := congrArg JobVertex.name hbare
  have hid : supply.vertex n = w.id := congrArg JobVertex.id hbare
  exact ⟨(h.vertexIds w.name w.id).mpr ⟨(v, n), hentry, hname, hid⟩,
    v, List.fst_mem_of_mem_zipIdx hentry, hname⟩

/-- A key names the subtasks of the vertex that it is read as. -/
theorem Drawn.mem_named_iff
    (h : d.Drawn supply d.vertices.zipIdx es job) (hvalid : d.Valid)
    {t : Topology} (ht : t.Whole) (hgraph : t.graph = job.graph)
    {w : JobVertex} (hw : w ∈ job.graph.vertices) {key : String}
    {subtask : Option Nat} (hsplit : splitTaskKey key = .ok (w.name, subtask))
    (id : TaskId) : id ∈ job.named t key ↔
      id.vertex = w.id ∧ id.subtask < w.parallelism ∧
        ∀ k ∈ subtask, k = id.subtask := by
  have hhas : ∀ k, t.HasTask ⟨w.id, k⟩ ↔ k < w.parallelism := by
    intro k
    refine ht.exists_taskIdAt_iff.trans ?_
    rw [ht.graph.parallelismOf_eq (hgraph ▸ hw)]
  have hnames : ∀ x ∈ job.graph.vertices, KeyNames key x.name id.subtask ↔
      w.name = x.name ∧ ∀ k ∈ subtask, k = id.subtask := by
    intro x hx
    obtain ⟨-, v, hv, hname⟩ := h.vertexIds_name hx
    exact keyNames_iff hsplit (hname ▸ (hvalid.name v hv).2)
  obtain ⟨vertex, k⟩ := id
  constructor
  · rintro ⟨hknown, x, hx, rfl, hkey⟩
    obtain ⟨heq, hk⟩ := (hnames x hx).mp hkey
    have hvertex : w.id = x.id := by
      have hid := (h.vertexIds_name hw).1
      rw [heq, (h.vertexIds_name hx).1] at hid
      exact (Option.some.inj hid).symm
    exact ⟨hvertex.symm, (hhas k).mp (hvertex ▸ hknown), hk⟩
  · rintro ⟨rfl, hlt, hk⟩
    exact ⟨(hhas k).mpr hlt, w, hw, rfl, (hnames w hw).mpr ⟨rfl, hk⟩⟩

/-- The tasks that are looked up for a key of the initial states are the ones
that it names. -/
theorem Drawn.exists_tasksOfKey
    (h : d.Drawn supply d.vertices.zipIdx es job) (hvalid : d.Valid)
    {t : Topology} (ht : t.Whole) (hgraph : t.graph = job.graph)
    {key : String} (hkey : key ∈ d.states.keys) :
    ∃ ids, job.tasksOfKey t key = .ok ids ∧ ids.Nodup ∧
      ∀ id, id ∈ ids ↔ id ∈ job.named t key := by
  obtain ⟨v, hv, subtask, hsplit, hrange⟩ := hvalid.states key hkey
  obtain ⟨w, hw, hid, hname, hparallelism⟩ := h.exists_vertex_of_mem hvalid hv
  have hnamed := h.mem_named_iff hvalid ht hgraph hw (hname ▸ hsplit)
  have hvertex : job.vertexId v.name = .ok w.id := by
    rw [LoadedJob.vertexId, hid]
  cases subtask with
  | some k =>
    refine ⟨[⟨w.id, k⟩], ?_, List.nodup_singleton _, fun id => ?_⟩
    · rw [LoadedJob.tasksOfKey, hsplit]
      simp only [bind, Except.bind, hvertex]
      rfl
    · rw [hnamed, List.mem_singleton]
      constructor
      · rintro rfl
        exact ⟨rfl, hparallelism ▸ hrange k rfl,
          fun l hl => (Option.some.inj hl).symm⟩
      · rintro ⟨hid, -, hk⟩
        rw [hk k rfl, ← hid]
  | none =>
    obtain ⟨o, ho, hoid, how⟩ := ht.exists_operator (hgraph ▸ hw)
    have hoperator : t.operator w.id = .ok o :=
      ht.staffed.operator_eq_ok.mpr ⟨ho, hoid⟩
    have hsubtasks : o.parallelism = w.parallelism :=
      congrArg Operator.parallelism how
    refine ⟨(List.range o.parallelism).map (⟨w.id, ·⟩), ?_, ?_, fun id => ?_⟩
    · rw [LoadedJob.tasksOfKey, hsplit]
      simp only [bind, Except.bind, hvertex, hoperator]
      rfl
    · exact List.nodup_range.map fun k l heq => congrArg TaskId.subtask heq
    · rw [hnamed, hsubtasks, List.mem_map]
      constructor
      · rintro ⟨k, hk, rfl⟩
        exact ⟨rfl, List.mem_range.mp hk, by simp⟩
      · rintro ⟨hvertex, hlt, -⟩
        exact ⟨id.subtask, List.mem_range.mpr hlt, hvertex ▸ rfl⟩

theorem mem_keys_iff {key : String} :
    key ∈ d.states.keys ↔ ∃ x ∈ d.states.toList, x.1 = key := by
  rw [← Std.TreeMap.map_fst_toList_eq_keys, List.mem_map]

/-- The initial states of a valid definition can be set. -/
theorem Drawn.exists_applyInitialStates
    (h : d.Drawn supply d.vertices.zipIdx es job) (hvalid : d.Valid)
    {t : Topology} (ht : t.Whole) (hgraph : t.graph = job.graph) :
    ∃ t' n, job.applyInitialStates t = (t', .ok n) := by
  refine LoadedJob.exists_applyKeys ht (fun x hx => ?_) 0
  rw [h.states] at hx
  obtain ⟨ids, hids, -, hnamed⟩ := h.exists_tasksOfKey hvalid ht hgraph
    (mem_keys_iff.mpr ⟨x, hx, rfl⟩)
  exact ⟨ids, hids, fun id hid => ((hnamed id).mp hid).1⟩

/-! ## Circles of edges -/

/-- An edge leads from one name to another. -/
def LeadsTo (d : JobDefinition) (a b : String) : Prop :=
  ∃ e ∈ d.edges, e.source = a ∧ e.target = b

/-- Edges lead from a vertex back to it. -/
def Cyclic (d : JobDefinition) : Prop :=
  ∃ name, Relation.TransGen d.LeadsTo name name

theorem Drawn.leadsTo_iff (h : d.Drawn supply d.vertices.zipIdx
    d.edges.zipIdx job) {x y : VertexId} :
    job.graph.LeadsTo x y ↔ ∃ a b, d.LeadsTo a b ∧
      job.vertexIds[a]? = some x ∧ job.vertexIds[b]? = some y := by
  constructor
  · rintro ⟨e, he, rfl, rfl⟩
    obtain ⟨⟨spec, n⟩, hentry, hdraws⟩ := (h.edges e).mp he
    exact ⟨spec.source, spec.target,
      ⟨spec, List.fst_mem_of_mem_zipIdx hentry, rfl, rfl⟩,
      hdraws.producer, hdraws.target⟩
  · rintro ⟨-, -, ⟨spec, hspec, rfl, rfl⟩, hx, hy⟩
    obtain ⟨n, hn⟩ := List.mem_iff_getElem?.mp hspec
    refine ⟨⟨supply.dataSet n, x, y, spec.pattern, spec.kind⟩, ?_, rfl, rfl⟩
    exact (h.edges _).mpr ⟨(spec, n), List.mem_zipIdx_iff_getElem?.mpr hn,
      rfl, hx, hy, rfl, rfl⟩

/-- The graph has a cycle iff the edges of the definition form one. -/
theorem Drawn.acyclic_iff (h : d.Drawn supply d.vertices.zipIdx
    d.edges.zipIdx job) (hvalid : d.Valid) {dataSets : Nat}
    (hfresh : supply.Fresh d.vertices.length dataSets) :
    job.graph.Acyclic ↔ ¬ d.Cyclic := by
  have hnames : ∀ {x y}, Relation.TransGen job.graph.LeadsTo x y →
      ∃ a b, Relation.TransGen d.LeadsTo a b ∧
        job.vertexIds[a]? = some x ∧ job.vertexIds[b]? = some y := by
    intro x y hxy
    induction hxy with
    | single hlead =>
      obtain ⟨a, b, hab, hx, hy⟩ := h.leadsTo_iff.mp hlead
      exact ⟨a, b, .single hab, hx, hy⟩
    | tail _ hlead ih =>
      obtain ⟨a, b, hab, hx, hy⟩ := ih
      obtain ⟨b', c, hbc, hy', hz⟩ := h.leadsTo_iff.mp hlead
      obtain rfl : b = b' := h.name_inj hfresh hy hy'
      exact ⟨a, c, hab.tail hbc, hx, hz⟩
  -- A cycle of names only passes names of vertices, which all have ids.
  have hends : ∀ {a b}, d.LeadsTo a b →
      job.graph.LeadsTo (job.vertexIds[a]?.getD default)
        (job.vertexIds[b]?.getD default) := by
    rintro a b ⟨e, he, rfl, rfl⟩
    have hid : ∀ name ∈ [e.source, e.target], job.vertexIds[name]? =
        some (job.vertexIds[name]?.getD default) := by
      intro name hname
      obtain ⟨v, hv, rfl⟩ := hvalid.ends e he name hname
      obtain ⟨id, hid⟩ := h.exists_vertexId hv
      rw [hid]
      rfl
    exact h.leadsTo_iff.mpr ⟨e.source, e.target, ⟨e, he, rfl, rfl⟩,
      hid _ (by simp), hid _ (by simp)⟩
  constructor
  · rintro hacyclic ⟨name, hcycle⟩
    exact hacyclic _ (Relation.TransGen.lift
      (fun name => job.vertexIds[name]?.getD default) (fun _ _ => hends) _ _
      hcycle)
  · intro hnot id hcycle
    obtain ⟨a, b, hab, ha, hb⟩ := hnames hcycle
    obtain rfl : a = b := h.name_inj hfresh ha hb
    exact hnot ⟨a, hab⟩

theorem Drawn.parallelism_pos
    (h : d.Drawn supply d.vertices.zipIdx es job) (hvalid : d.Valid) :
    ∀ v ∈ job.graph.vertices, 0 < v.parallelism := by
  intro v hv
  obtain ⟨⟨spec, n⟩, hentry, hbare⟩ := h.exists_entry hv
  have hparallelism : d.parallelismOf spec = v.parallelism :=
    congrArg JobVertex.parallelism hbare
  rw [← hparallelism]
  exact hvalid.parallelism spec (List.fst_mem_of_mem_zipIdx hentry)

/-! ## Definitions that pass the checks -/

/-- A definition that passes the checks is loaded unless it has an edge from
a vertex to itself. The graph loaded is expanded unless edges lead in a circle
or co-located subtasks belong into different regions, and then the initial
states can be set. -/
theorem outcome_of_validate {d : JobDefinition} (hok : d.validate = .ok ())
    {supply : IdSupply}
    (hfresh : supply.Fresh d.vertices.length d.edges.length) :
    ((∃ e ∈ d.edges, e.source = e.target) →
        ∃ v, d.load supply = .error (.invalidGraph (.selfLoop v))) ∧
      ((∀ e ∈ d.edges, e.source ≠ e.target) → ∃ job,
        d.load supply = .ok job ∧
        d.Drawn supply d.vertices.zipIdx d.edges.zipIdx job ∧
        (d.Cyclic → ∃ names, ofJobGraph job.graph =
          .error (.invalidGraph (.cycle names))) ∧
        (¬ d.Cyclic → ¬ job.graph.CoLocated → ∃ subtask group first second,
          first ≠ second ∧ ofJobGraph job.graph =
            .error (.coLocation (.split subtask group first second))) ∧
        (¬ d.Cyclic → job.graph.CoLocated → ∃ t, ofJobGraph job.graph = .ok t ∧
          ∃ t' n, job.applyInitialStates t = (t', .ok n))) := by
  have hvalid := validate_eq_ok_iff.mp hok
  rcases load_cases hvalid hfresh with
    ⟨hnone, job, hload, h⟩ | ⟨⟨e, he, hself⟩, v, herror⟩
  · refine ⟨fun ⟨e, he, hself⟩ => absurd hself (hnone e he), fun _ =>
      ⟨job, hload, h, ?_⟩⟩
    have hg := h.built.wellFormed
    have hcyclic : d.Cyclic ↔ ¬ job.graph.Acyclic := by
      rw [h.acyclic_iff hvalid hfresh, not_not]
    rw [hcyclic, not_not]
    rcases ofJobGraph_cases hg (h.parallelism_pos hvalid) with
      ⟨hacyclic, hco, t, ht⟩ | ⟨hcycle, hnames⟩ | ⟨hacyclic, hsplit, hfirst⟩
    · refine ⟨fun hcycle => absurd hacyclic hcycle,
        fun _ hnot => absurd hco hnot, fun _ _ => ⟨t, ht, ?_⟩⟩
      obtain ⟨t0, hwhole, hgraph, rfl⟩ := exists_of_ofJobGraph hg ht
      exact h.exists_applyInitialStates hvalid hwhole.computeRegions
        (graph_computeRegions.trans hgraph)
    · exact ⟨fun _ => hnames, fun hacyclic => absurd hacyclic hcycle,
        fun hacyclic => absurd hacyclic hcycle⟩
    · exact ⟨fun hcycle => absurd hacyclic hcycle, fun _ _ => hfirst,
        fun _ hco => absurd hco hsplit⟩
  · exact ⟨fun _ => ⟨v, herror⟩,
      fun hnone => absurd hself (hnone e he)⟩

/-- A source and a sink with their subtasks in one group. The source starts
out finished, and the last subtask of the sink running. -/
def sampleDefinition : JobDefinition where
  name := "sample"
  defaultParallelism := 2
  vertices := [{ name := "source", coLocationGroup := some "group" },
    { name := "sink", coLocationGroup := some "group" }]
  edges := [{ source := "source", target := "sink" }]
  states := .ofList
    [("source", TaskState.finished), ("sink:1", TaskState.running)]

/-- The definition is loaded, expanded and brought into its initial states. -/
theorem outcome_sampleDefinition :
    sampleDefinition.validate = .ok () ∧
      (IdSupply.sequential 0).Fresh 2 1 ∧ ∃ job t t' n,
        sampleDefinition.load (.sequential 0) = .ok job ∧
        ofJobGraph job.graph = .ok t ∧
        job.applyInitialStates t = (t', .ok n) := by
  have hok : sampleDefinition.validate = .ok () := by decide +kernel
  have hfresh : (IdSupply.sequential 0).Fresh 2 1 :=
    ⟨by decide +kernel, by decide +kernel⟩
  refine ⟨hok, hfresh, ?_⟩
  obtain ⟨-, hload⟩ := outcome_of_validate hok hfresh
  obtain ⟨job, hjob, hdrawn, -, -, hrun⟩ := hload (by decide)
  have hexpanded : ((sampleDefinition.load (.sequential 0)).toOption.map
      fun job => (ofJobGraph job.graph).isOk) = some true := by
    decide +kernel
  rw [hjob] at hexpanded
  obtain ⟨t, ht⟩ : ∃ t, ofJobGraph job.graph = .ok t := by
    cases hg : ofJobGraph job.graph with
    | ok t => exact ⟨t, rfl⟩
    | error e =>
      simp [Except.toOption, hg, Except.isOk, Except.toBool] at hexpanded
  have hrunnable :=
    (exists_ofJobGraph_iff hdrawn.built.wellFormed).mp ⟨t, ht⟩
  have hnot : ¬ sampleDefinition.Cyclic :=
    (hdrawn.acyclic_iff (validate_eq_ok_iff.mp hok) hfresh).mp
      hrunnable.acyclic
  obtain ⟨t, ht, t', n, happlied⟩ := hrun hnot hrunnable.coLocated
  exact ⟨job, t, t', n, hjob, ht, happlied⟩

end JobDefinition

end ControlPlane
