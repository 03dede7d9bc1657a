import Mathlib
import ControlPlane.Inspection.Job
import ControlPlane.Proofs.Definition.States
import ControlPlane.Proofs.Text.Decimal

/-!
# Jobs that have been opened

Opening a definition goes through three steps, and it fails only where the
definition cannot be loaded or its graph not be expanded. The topology of an
open job is that of its graph, with the tasks in their initial states. Every
vertex is known by the name that its author gave it.
-/

namespace ControlPlane

namespace Inspection

open ControlPlane.Topology

/-- A job is that of a definition, and it knows the names of all vertices. -/
structure Job.Opened (d : JobDefinition) (supply : IdSupply) (job : Job) :
    Prop where
  valid : d.Valid
  fresh : supply.Fresh d.vertices.length d.edges.length
  loaded : d.load supply = .ok job.loaded
  reachable : job.topology.Reachable
  graph : job.topology.graph = job.loaded.graph
  names : ∀ v ∈ job.loaded.graph.vertices, job.names[v.id]? = some v.name

/-- Of entries with different ids, each is found under its id. -/
theorem getElem?_foldl_insert {entries : List (String × VertexId)}
    (hids : (entries.map (·.2)).Nodup) {name : String} {id : VertexId}
    (h : (name, id) ∈ entries) (names : Std.TreeMap VertexId String) :
    (entries.foldl (fun names entry => names.insert entry.2 entry.1)
      names)[id]? = some name := by
  induction entries using List.reverseRecOn with
  | nil => cases h
  | append_singleton entries entry ih =>
    rw [List.map_append, List.nodup_append] at hids
    obtain ⟨hids, -, hlast⟩ := hids
    rw [List.foldl_append, List.foldl_cons, List.foldl_nil,
      Std.TreeMap.getElem?_insert]
    rcases List.mem_append.mp h with h | h
    · have hne : id ≠ entry.2 :=
        hlast id (List.mem_map_of_mem h) _ (by simp)
      rw [if_neg (by simpa using hne.symm), ih hids h]
    · obtain rfl := List.mem_singleton.mp h
      rw [if_pos Std.ReflCmp.compare_self]

section Open

variable {d : JobDefinition} {supply : IdSupply} {loaded : LoadedJob}
  {t t' : Topology}

theorem nodup_vertexIds
    (h : d.Drawn supply d.vertices.zipIdx d.edges.zipIdx loaded)
    (hfresh : supply.Fresh d.vertices.length d.edges.length) :
    (loaded.vertexIds.toList.map (·.2)).Nodup := by
  have hentries : ∀ entry ∈ loaded.vertexIds.toList,
      loaded.vertexIds[entry.1]? = some entry.2 := fun entry hentry =>
    Std.TreeMap.mem_toList_iff_getElem?_eq_some.mp hentry
  refine List.Nodup.map_on (fun a ha b hb hid => ?_) ?_
  · have hname := h.name_inj hfresh (hentries a ha) (hid ▸ hentries b hb)
    exact Prod.ext hname hid
  · exact Std.TreeMap.distinct_keys_toList.imp
      fun hne heq => hne (by simp [heq])

theorem ofDefinition_eq_ok_iff {job : Job} :
    Job.ofDefinition supply d = .ok job ↔ ∃ t applied,
      d.load supply = .ok job.loaded ∧
        ofJobGraph job.loaded.graph = .ok t ∧
        job.loaded.applyInitialStates t = (job.topology, .ok applied) ∧
        job.names = job.loaded.vertexIds.foldl
          (fun names name id => names.insert id name) ∅ := by
  obtain ⟨loaded, topology, names⟩ := job
  unfold Job.ofDefinition
  constructor
  · intro h
    obtain ⟨loaded, hload, h⟩ := bind_eq_ok_iff.mp h
    obtain ⟨t, ht, h⟩ := bind_eq_ok_iff.mp h
    obtain ⟨applied, happlied, h⟩ := bind_eq_ok_iff.mp h
    cases h
    rw [within, mapError_eq_ok_iff] at hload ht happlied
    exact ⟨t, applied, hload, ht, Prod.ext rfl happlied, rfl⟩
  · rintro ⟨t, applied, hload, ht, happlied, hnames⟩
    dsimp only at hload ht happlied hnames
    subst hnames
    simp only [within, hload, ht, happlied, Except.mapError, bind,
      Except.bind]
    rfl

/-- The initial states of a valid definition can be set on the topology of its
graph. -/
theorem exists_applied (hok : d.validate = .ok ())
    (hfresh : supply.Fresh d.vertices.length d.edges.length)
    (hload : d.load supply = .ok loaded)
    (ht : ofJobGraph loaded.graph = .ok t) :
    ∃ t' applied, loaded.applyInitialStates t = (t', .ok applied) ∧
      t'.Reachable ∧ t'.graph = loaded.graph ∧
      ∀ i, t'.taskIdAt i = t.taskIdAt i := by
  have hvalid := JobDefinition.validate_eq_ok_iff.mp hok
  have h := JobDefinition.drawn_of_load hvalid hfresh hload
  have hgraph : t.graph = loaded.graph := by
    obtain ⟨t0, -, hgraph, rfl⟩ := exists_of_ofJobGraph h.built.wellFormed ht
    exact graph_computeRegions.trans hgraph
  obtain ⟨t', named, -, hrun, hsettled⟩ :=
    h.exists_settled hvalid (.built h.built ht) hgraph
  exact ⟨t', _, hrun, hsettled.reachable, hsettled.staff.graph.trans hgraph,
    hsettled.staff.taskIdAt⟩

/-- A job that was opened knows its definition. -/
theorem opened_of_ofDefinition {job : Job} (hok : d.validate = .ok ())
    (hfresh : supply.Fresh d.vertices.length d.edges.length)
    (hjob : Job.ofDefinition supply d = .ok job) : job.Opened d supply := by
  obtain ⟨t, applied, hload, ht, happlied, hnames⟩ :=
    ofDefinition_eq_ok_iff.mp hjob
  have hvalid := JobDefinition.validate_eq_ok_iff.mp hok
  have h := JobDefinition.drawn_of_load hvalid hfresh hload
  obtain ⟨t', _, hrun, hreachable, hgraph, -⟩ :=
    exists_applied hok hfresh hload ht
  obtain rfl : job.topology = t' :=
    congrArg Prod.fst (happlied.symm.trans hrun)
  refine ⟨hvalid, hfresh, hload, hreachable, hgraph, fun v hv => ?_⟩
  rw [hnames, Std.TreeMap.foldl_eq_foldl_toList]
  exact getElem?_foldl_insert (nodup_vertexIds h hfresh)
    (Std.TreeMap.mem_toList_iff_getElem?_eq_some.mpr (h.vertexIds_name hv).1) ∅

/-- Every valid definition whose graph and topology can be built is opened. -/
theorem exists_ofDefinition (hok : d.validate = .ok ())
    (hfresh : supply.Fresh d.vertices.length d.edges.length)
    (hload : d.load supply = .ok loaded)
    (ht : ofJobGraph loaded.graph = .ok t) :
    ∃ job, Job.ofDefinition supply d = .ok job ∧ job.loaded = loaded ∧
      ∀ i, job.topology.taskIdAt i = t.taskIdAt i := by
  obtain ⟨t', applied, hrun, -, -, hids⟩ :=
    exists_applied hok hfresh hload ht
  let names : Std.TreeMap VertexId String := loaded.vertexIds.foldl
    (fun names name id => names.insert id name) ∅
  exact ⟨⟨loaded, t', names⟩,
    ofDefinition_eq_ok_iff.mpr ⟨t, applied, hload, ht, hrun, rfl⟩, rfl, hids⟩

end Open

/-! ## Vertices and tasks -/

namespace Job.Opened

variable {d : JobDefinition} {supply : IdSupply} {job : Job}
  (h : job.Opened d supply)

include h

theorem drawn :
    d.Drawn supply d.vertices.zipIdx d.edges.zipIdx job.loaded :=
  JobDefinition.drawn_of_load h.valid h.fresh h.loaded

/-- The tasks are those of the vertices. -/
theorem hasTask_iff {id : TaskId} : job.topology.HasTask id ↔
    ∃ v ∈ job.loaded.graph.vertices, v.id = id.vertex ∧
      id.subtask < v.parallelism := by
  have hwhole := h.reachable.whole
  rw [← h.graph]
  constructor
  · rintro ⟨i, hi⟩
    obtain ⟨o, ho, hid⟩ := hwhole.owned i id hi
    obtain ⟨v, hv, hov⟩ := hwhole.staffed.vertex o ho
    have hlt := hwhole.staffed.subtask_lt ho hi hid.symm
    rw [hov] at hid hlt
    exact ⟨v, hv, hid, hlt⟩
  · rintro ⟨v, hv, hid, hlt⟩
    refine hwhole.exists_taskIdAt_iff.mpr ?_
    rwa [← hid, hwhole.graph.parallelismOf_eq hv]

/-- The vertices are those of the definition. -/
theorem exists_spec {v : JobVertex} (hv : v ∈ job.loaded.graph.vertices) :
    ∃ spec ∈ d.vertices, spec.name = v.name ∧
      d.parallelismOf spec = v.parallelism := by
  obtain ⟨⟨spec, n⟩, hentry, hbare⟩ := h.drawn.exists_entry hv
  exact ⟨spec, List.fst_mem_of_mem_zipIdx hentry,
    congrArg JobVertex.name hbare, congrArg JobVertex.parallelism hbare⟩

/-- Numbers of subtasks are words. -/
theorem parallelism_lt
    (hwords : ∀ v ∈ d.vertices, d.parallelismOf v < 2 ^ 32) {v : JobVertex}
    (hv : v ∈ job.loaded.graph.vertices) : v.parallelism < 2 ^ 32 := by
  obtain ⟨spec, hspec, -, hparallelism⟩ := h.exists_spec hv
  exact hparallelism ▸ hwords spec hspec

/-! ## Names of tasks -/

theorem taskKey_eq {v : JobVertex} (hv : v ∈ job.loaded.graph.vertices)
    (subtask : Nat) :
    job.taskKey ⟨v.id, subtask⟩ = v.name ++ ":" ++ toString subtask := by
  rw [taskKey, h.names v hv]
  rfl

/-- Where the name of a vertex is split off, the vertex is found. -/
theorem taskId_of_split {v : JobVertex}
    (hv : v ∈ job.loaded.graph.vertices) {text : String}
    {subtask : Option Nat}
    (hsplit : splitTaskKey text = .ok (v.name, subtask)) :
    job.loaded.taskId text = .ok ⟨v.id, subtask.getD 0⟩ := by
  have hvertex : job.loaded.vertexId v.name = .ok v.id :=
    JobDefinition.vertexId_eq_ok_iff.mpr (h.drawn.vertexIds_name hv).1
  rw [LoadedJob.taskId, hsplit]
  simp only [bind, Except.bind, hvertex]
  rfl

theorem colon_not_mem {v : JobVertex}
    (hv : v ∈ job.loaded.graph.vertices) : ':' ∉ v.name.toList := by
  obtain ⟨-, spec, hspec, hname⟩ := h.drawn.vertexIds_name hv
  exact hname ▸ (h.valid.name spec hspec).2

/-- A number behind the name of a vertex is read as that of a subtask. -/
theorem taskId_append {v : JobVertex} (hv : v ∈ job.loaded.graph.vertices)
    {subtask : Nat} (hword : subtask < 2 ^ 32) :
    job.loaded.taskId (v.name ++ ":" ++ toString subtask) =
      .ok ⟨v.id, subtask⟩ :=
  h.taskId_of_split hv
    (splitTaskKey_append (h.colon_not_mem hv) (Text.numeral_toString hword))

/-- The name of a task is read as the task. -/
theorem taskId_taskKey (hwords : ∀ v ∈ d.vertices, d.parallelismOf v < 2 ^ 32)
    {id : TaskId} (hid : job.topology.HasTask id) :
    job.loaded.taskId (job.taskKey id) = .ok id := by
  obtain ⟨vertex, subtask⟩ := id
  obtain ⟨v, hv, rfl, hlt⟩ := h.hasTask_iff.mp hid
  rw [h.taskKey_eq hv]
  exact h.taskId_append hv (hlt.trans (h.parallelism_lt hwords hv))

end Job.Opened

/-! ## Definitions that are expanded -/

/-- Whether a definition is expanded can be computed. -/
theorem exists_of_expanded {d : JobDefinition} {supply : IdSupply}
    (h : ((d.load supply).toOption.map
      fun loaded => (ofJobGraph loaded.graph).isOk) = some true) :
    ∃ loaded t, d.load supply = .ok loaded ∧
      ofJobGraph loaded.graph = .ok t := by
  cases hload : d.load supply with
  | error e =>
    rw [hload] at h
    cases h
  | ok loaded =>
    cases ht : ofJobGraph loaded.graph with
    | error e => simp [hload, ht, Except.toOption, Except.isOk,
        Except.toBool] at h
    | ok t => exact ⟨loaded, t, rfl, ht⟩

end Inspection

end ControlPlane
