import Mathlib
import ControlPlane.Proofs.Definition.Outputs
import ControlPlane.Proofs.Inspection.Opened

/-!
# Keys of partitions

A partition is called by the task that produces it and by the number of an
output, which counts the edges that leave the vertex in the order they are
written in. The job graph knows an output as a dataset of its vertex, and the
topology finds partitions going from reader to reader. Both lead to the
same partition: the tasks that read it are those that the edge with this
number wires to its producer.
-/

namespace ControlPlane

namespace Inspection

open ControlPlane.Topology

/-! ## What a key has to name -/

/-- The keys of the partition that a subtask has on an output. The first
output is understood where no number is given. -/
inductive PartitionKey (name : String) (subtask : Nat) : Nat → String → Prop
  | full (output : Nat) : PartitionKey name subtask output
      (name ++ ":" ++ toString subtask ++ ":" ++ toString output)
  | short : PartitionKey name subtask 0 (name ++ ":" ++ toString subtask)

/-- A task is one of those that an edge wires to a subtask of its source. -/
def Job.WiredTo (job : Job) (d : JobDefinition) (e : EdgeSpec)
    (subtask : Nat) (reader : TaskId) : Prop :=
  ∃ l, d.Wires e subtask l ∧
    job.loaded.taskId (e.target ++ ":" ++ toString l) = .ok reader

/-- A partition that is known carries the data of a subtask along an edge. -/
structure Job.Carries (job : Job) (d : JobDefinition) (e : EdgeSpec)
    (subtask : Nat) (id : PartitionId) : Prop where
  known : ∃ part producer, job.topology.partition id = .ok part ∧
    part.kind = e.kind ∧
    job.topology.taskIdAt part.producer = some producer ∧
    job.loaded.taskId (e.source ++ ":" ++ toString subtask) = .ok producer
  handedTo : ∀ reader, job.topology.HandedTo id reader ↔
    job.WiredTo d e subtask reader
  takenBy : ∀ reader, job.topology.TakenBy id reader ↔
    job.WiredTo d e subtask reader

/-- The keys of partitions name the partitions that they are meant for. -/
structure KeysNamePartitions (d : JobDefinition) (job : Job) : Prop where
  output : ∀ v ∈ d.vertices, ∀ output e,
    (d.edgesFrom v.name)[output]? = some e →
    ∀ subtask < d.parallelismOf v, ∃ id,
      (∀ key, PartitionKey v.name subtask output key →
        job.partitionId key = .ok id) ∧ job.Carries d e subtask id
  /-- There is no output behind the last edge. -/
  beyond : ∀ v ∈ d.vertices, ∀ output,
    (d.edgesFrom v.name).length ≤ output → ∀ subtask key,
      PartitionKey v.name subtask output key →
      ∃ e, job.partitionId key = .error e
  /-- A key has one or two colons. -/
  parts : ∀ key : String, key.toList.count ':' ∉ [1, 2] →
    ∃ e, job.partitionId key = .error e
  /-- Keys of different outputs, or of different subtasks, name different
  partitions. -/
  distinct : ∀ v ∈ d.vertices, ∀ w ∈ d.vertices, ∀ k l m n key key' id,
    PartitionKey v.name k m key → PartitionKey w.name l n key' →
    job.partitionId key = .ok id → job.partitionId key' = .ok id →
    v = w ∧ k = l ∧ m = n

/-! ## The parts of a key -/

section Parts

theorem splitColons_of_not_mem {s : String} (h : ':' ∉ s.toList) :
    Job.splitColons s = [s] := by
  rw [Job.splitColons, List.splitOn_eq_singleton h, List.map_singleton,
    String.ofList_toList]

theorem splitColons_append {s : String} (h : ':' ∉ s.toList)
    (rest : String) :
    Job.splitColons (s ++ ":" ++ rest) = s :: Job.splitColons rest := by
  have hchars : (s ++ ":" ++ rest).toList =
      s.toList ++ ':' :: rest.toList := by
    simp
  rw [Job.splitColons, hchars, List.splitOn_append_cons_self_of_not_mem h,
    List.map_cons, String.ofList_toList, Job.splitColons]

theorem length_splitOn {α : Type*} [BEq α] [LawfulBEq α] (a : α)
    (xs : List α) : (xs.splitOn a).length = xs.count a + 1 := by
  induction xs with
  | nil => rfl
  | cons x xs ih =>
    rw [List.splitOn_cons_eq_if_modifyHead, List.count_cons]
    split
    · rw [List.length_cons, ih]
    · rw [List.length_modifyHead, ih, Nat.add_zero]

theorem length_splitColons (s : String) :
    (Job.splitColons s).length = s.toList.count ':' + 1 := by
  rw [Job.splitColons, List.length_map, length_splitOn]

variable {key : String}

/-- Only a key with one or two colons has parts. -/
theorem count_colon_of_partitionParts {parts : String × String × String}
    (h : Job.partitionParts key = .ok parts) :
    key.toList.count ':' ∈ [1, 2] := by
  have hlength := length_splitColons key
  rw [Job.partitionParts] at h
  split at h
  case h_3 => cases h
  all_goals
    rename_i hsplit
    simp only [hsplit, List.length_cons, List.length_nil] at hlength
    simp
    omega

/-- The parts of a key are what it was put together from. -/
theorem PartitionKey.partitionParts {name : String}
    (hname : ':' ∉ name.toList) {k o : Nat} (h : PartitionKey name k o key) :
    Job.partitionParts key = .ok (name, toString k, toString o) := by
  have hsubtask := Text.colon_not_mem_toString k
  cases h with
  | full =>
    have hkey : name ++ ":" ++ toString k ++ ":" ++ toString o =
        name ++ ":" ++ (toString k ++ ":" ++ toString o) := by
      simp only [String.append_assoc]
    rw [Job.partitionParts, hkey, splitColons_append hname,
      splitColons_append hsubtask,
      splitColons_of_not_mem (Text.colon_not_mem_toString o)]
  | short =>
    rw [Job.partitionParts, splitColons_append hname,
      splitColons_of_not_mem hsubtask]
    rfl

/-- A key is read part by part. -/
theorem partitionId_eq_ok_iff {job : Job} {id : PartitionId} :
    job.partitionId key = .ok id ↔ ∃ producer subtask output index,
      Job.partitionParts key = .ok (producer, subtask, output) ∧
        Text.numeral32 subtask = .ok id.number ∧
        Text.numeral64 output = .ok index ∧
        job.output producer index = .ok id.dataSet := by
  constructor
  · intro h
    obtain ⟨⟨producer, subtask, output⟩, hparts, h⟩ := bind_eq_ok_iff.mp h
    obtain ⟨number, hnumber, h⟩ := bind_eq_ok_iff.mp h
    obtain ⟨index, hindex, h⟩ := bind_eq_ok_iff.mp h
    obtain ⟨dataSet, houtput, hret⟩ := bind_eq_ok_iff.mp h
    cases hret
    exact ⟨producer, subtask, output, index, hparts,
      mapError_eq_ok_iff.mp hnumber, mapError_eq_ok_iff.mp hindex, houtput⟩
  · rintro ⟨producer, subtask, output, index, hparts, hnumber, hindex, houtput⟩
    simp only [Job.partitionId, hparts, withinNumeral, hnumber, hindex,
      houtput, Except.mapError, bind, Except.bind, pure, Except.pure]

end Parts

namespace Job.Opened

variable {d : JobDefinition} {supply : IdSupply} {job : Job}
  (h : job.Opened d supply) {v : JobVertex}
  (hv : v ∈ job.loaded.graph.vertices)

include h hv

/-- The outputs of a vertex are its datasets. -/
theorem output_eq_ok_iff {index : Nat} {dataSet : DataSetId} :
    job.output v.name index = .ok dataSet ↔
      v.produced[index]? = some dataSet := by
  have hvertex : job.loaded.graph.vertex v.id = .ok v :=
    h.drawn.built.wellFormed.vertex_eq_ok.mpr ⟨hv, rfl⟩
  simp only [Job.output, (h.drawn.vertexIds_name hv).1, hvertex,
    Except.mapError, bind, Except.bind]
  cases v.produced[index]? <;> simp [refuse, pure, Except.pure]

/-- A key is read as a dataset of its vertex. -/
theorem partitionId_iff {subtask output : Nat} {key : String}
    (hkey : PartitionKey v.name subtask output key) {id : PartitionId} :
    job.partitionId key = .ok id ↔ subtask < 2 ^ 32 ∧ output < 2 ^ 64 ∧
      v.produced[output]? = some id.dataSet ∧ id.number = subtask := by
  have hparts := hkey.partitionParts (h.colon_not_mem hv)
  rw [partitionId_eq_ok_iff]
  constructor
  · rintro ⟨_, _, _, index, hparts', hnumber, hindex, houtput⟩
    cases hparts.symm.trans hparts'
    obtain ⟨hsubtask, hid⟩ :=
      (Text.numeral_toString_eq_ok_iff (by decide)).mp hnumber
    obtain ⟨hword, rfl⟩ :=
      (Text.numeral_toString_eq_ok_iff (by decide)).mp hindex
    exact ⟨hsubtask, hword, (h.output_eq_ok_iff hv).mp houtput, hid⟩
  · rintro ⟨hsubtask, hword, hproduced, hid⟩
    refine ⟨_, _, _, output, hparts, ?_, Text.numeral_toString hword,
      (h.output_eq_ok_iff hv).mpr hproduced⟩
    rw [hid]
    exact Text.numeral_toString hsubtask

end Job.Opened

/-! ## Edges and their partitions -/

namespace Job.Opened

variable {d : JobDefinition} {supply : IdSupply} {job : Job}
  (h : job.Opened d supply)

include h

theorem listsOutputs :
    JobDefinition.ListsOutputs supply d.edges.zipIdx job.loaded :=
  JobDefinition.listsOutputs_of_load h.valid h.fresh h.loaded

section Edge

variable (hwords : ∀ v ∈ d.vertices, d.parallelismOf v < 2 ^ 32)
  {spec : EdgeSpec} (hspec : spec ∈ d.edges) {n : Nat} {e : JobEdge}
  (he : e ∈ job.loaded.graph.edges)
  (hdraws : spec.Draws n supply job.loaded.vertexIds e)

include hwords hspec he hdraws

/-- The tasks that an edge of the definition wires to a subtask are those that
the edge of the graph does. -/
theorem wiredTo_iff {subtask : Nat} {reader : TaskId} :
    job.WiredTo d spec subtask reader ↔ reader.vertex = e.target ∧
      job.topology.graph.Connects e subtask reader.subtask := by
  obtain ⟨entry, -, hname, w, hw, hid, hbare⟩ :=
    h.drawn.exists_vertex hdraws.target
  have hwname : w.name = spec.target :=
    (congrArg JobVertex.name hbare).trans hname
  have hparallelism := h.drawn.built.wellFormed.parallelismOf_eq hw
  have hwires : ∀ l, d.Wires spec subtask l ↔
      job.topology.graph.Connects e subtask l := by
    intro l
    rw [h.drawn.wires_iff h.valid hspec hdraws, ← h.graph,
      h.reachable.whole.connects_iff (h.graph ▸ he)]
  -- Only subtasks are wired, and their numbers are words.
  have htask : ∀ l, d.Wires spec subtask l →
      job.loaded.taskId (spec.target ++ ":" ++ toString l) =
        .ok ⟨e.target, l⟩ := by
    intro l hl
    have hlt := ((h.drawn.wires_iff h.valid hspec hdraws).mp hl).2.1
    rw [← hid, hparallelism] at hlt
    rw [← hwname, ← hid]
    exact h.taskId_append hw (hlt.trans (h.parallelism_lt hwords hw))
  constructor
  · rintro ⟨l, hl, htaskId⟩
    obtain rfl := Except.ok.inj ((htask l hl).symm.trans htaskId)
    exact ⟨rfl, (hwires l).mp hl⟩
  · obtain ⟨vertex, l⟩ := reader
    rintro ⟨rfl, hconnects⟩
    have hl := (hwires l).mpr hconnects
    exact ⟨l, hl, htask l hl⟩

/-- A subtask of the source of an edge has a partition on it. -/
theorem carries {v : JobVertex} (hv : v ∈ job.loaded.graph.vertices)
    (hproducer : e.producer = v.id) {subtask : Nat}
    (hlt : subtask < v.parallelism) :
    job.Carries d spec subtask ⟨e.source, subtask⟩ := by
  have hwhole := h.reachable.whole
  have hedge : e ∈ job.topology.graph.edges := h.graph ▸ he
  have hpositive : subtask < job.topology.graph.parallelismOf e.producer := by
    rwa [h.graph, hproducer, h.drawn.built.wellFormed.parallelismOf_eq hv]
  constructor
  case known =>
    obtain ⟨part, hpart, hview⟩ :=
      map_eq_ok_iff.mp (hwhole.partitionView_of_lt hedge hpositive)
    have hkind : part.kind = e.kind := congrArg PartitionView.kind hview
    have htask : job.topology.taskIdAt part.producer =
        some ⟨e.producer, subtask⟩ := congrArg PartitionView.producer hview
    have hname : v.name = spec.source := by
      refine h.drawn.name_inj h.fresh (h.drawn.vertexIds_name hv).1 ?_
      rw [← hproducer]
      exact hdraws.producer
    refine ⟨part, _, hpart, hkind.trans hdraws.kind, htask, ?_⟩
    rw [← hname, hproducer]
    exact h.taskId_append hv (hlt.trans (h.parallelism_lt hwords hv))
  case handedTo =>
    intro reader
    rw [h.wiredTo_iff hwords hspec he hdraws, hwhole.handedTo_iff hedge]
  case takenBy =>
    intro reader
    rw [h.wiredTo_iff hwords hspec he hdraws, hwhole.takenBy_iff hedge]

end Edge

/-- Keys name the partitions that they are meant for. -/
theorem keysNamePartitions
    (hwords : ∀ v ∈ d.vertices, d.parallelismOf v < 2 ^ 32)
    (hedges : d.edges.length < 2 ^ 64) : KeysNamePartitions d job where
  output := by
    intro v hv output spec hspec subtask hlt
    obtain ⟨w, hw, -, hname, hparallelism⟩ :=
      h.drawn.exists_vertex_of_mem h.valid hv
    rw [← hname] at hspec ⊢
    rw [← hparallelism] at hlt
    obtain ⟨n, e, he, hproduced, hdraws, hproducer⟩ :=
      h.listsOutputs.exists_edge hw h.drawn h.valid hspec
    have hmem : spec ∈ d.edges :=
      (List.mem_filter.mp (List.mem_of_getElem? hspec)).1
    have hword : output < 2 ^ 64 := by
      have houtput := (List.getElem?_eq_some_iff.mp hspec).1
      have hlength := List.length_filter_le (·.source = w.name) d.edges
      exact (houtput.trans_le hlength).trans hedges
    refine ⟨⟨e.source, subtask⟩, fun key hkey => ?_,
      h.carries hwords hmem he hdraws hw hproducer hlt⟩
    exact (h.partitionId_iff hw hkey).mpr
      ⟨hlt.trans (h.parallelism_lt hwords hw), hword, hproduced, rfl⟩
  beyond := by
    intro v hv output hle subtask key hkey
    obtain ⟨w, hw, -, hname, -⟩ := h.drawn.exists_vertex_of_mem h.valid hv
    rw [← hname] at hle hkey
    refine exists_eq_error fun id hid => ?_
    obtain ⟨-, -, hproduced, -⟩ := (h.partitionId_iff hw hkey).mp hid
    have hlt := (List.getElem?_eq_some_iff.mp hproduced).1
    rw [h.listsOutputs.length_eq hw] at hlt
    exact absurd hlt (Nat.not_lt.mpr hle)
  parts := by
    intro key hcount
    refine exists_eq_error fun id hid => ?_
    obtain ⟨_, _, _, _, hparts, -⟩ := partitionId_eq_ok_iff.mp hid
    exact hcount (count_colon_of_partitionParts hparts)
  distinct := by
    intro v hv w hw k l m n key key' id hkey hkey' hid hid'
    obtain ⟨v', hv', -, hvname, -⟩ := h.drawn.exists_vertex_of_mem h.valid hv
    obtain ⟨w', hw', -, hwname, -⟩ := h.drawn.exists_vertex_of_mem h.valid hw
    rw [← hvname] at hkey
    rw [← hwname] at hkey'
    obtain ⟨-, -, hm, hk⟩ := (h.partitionId_iff hv' hkey).mp hid
    obtain ⟨-, -, hn, hl⟩ := (h.partitionId_iff hw' hkey').mp hid'
    obtain ⟨hname, hmn⟩ := h.listsOutputs.place_inj hv' h.fresh hw' hm hn
    rw [hvname, hwname] at hname
    exact ⟨List.inj_on_of_nodup_map h.valid.names_nodup hv hw hname,
      hk.symm.trans hl, hmn⟩

end Job.Opened

/-! ## Definitions that pass the checks -/

/-- The job of a definition that passes the checks can be opened if its graph
and its topology can be built, and then the keys of its partitions name the
partitions that they are meant for. -/
theorem keysNamePartitions_of_validate {d : JobDefinition}
    (hok : d.validate = .ok ()) {supply : IdSupply}
    (hfresh : supply.Fresh d.vertices.length d.edges.length)
    (hwords : ∀ v ∈ d.vertices, d.parallelismOf v < 2 ^ 32)
    (hedges : d.edges.length < 2 ^ 64) {loaded : LoadedJob}
    (hload : d.load supply = .ok loaded) {t : Topology}
    (ht : ofJobGraph loaded.graph = .ok t) :
    ∃ job, Job.ofDefinition supply d = .ok job ∧ job.loaded = loaded ∧
      (∀ i, job.topology.taskIdAt i = t.taskIdAt i) ∧
      KeysNamePartitions d job := by
  obtain ⟨job, hjob, hloaded, hids⟩ := exists_ofDefinition hok hfresh hload ht
  exact ⟨job, hjob, hloaded, hids,
    (opened_of_ofDefinition hok hfresh hjob).keysNamePartitions hwords hedges⟩

/-- A source with two outputs, of which the first one is read by the vertex
that is written last. -/
def forkedDefinition : JobDefinition where
  name := "forked"
  defaultParallelism := 2
  vertices := [{ name := "source" }, { name := "early" },
    { name := "late", parallelism := some 4 }]
  edges := [
    { source := "source", target := "late", pattern := .pointwise },
    { source := "source", target := "early", kind := .blocking }]

/-- The keys of the four partitions name them. -/
theorem keysNamePartitions_forkedDefinition :
    forkedDefinition.validate = .ok () ∧
      (IdSupply.sequential 0).Fresh 3 2 ∧
      (∀ v ∈ forkedDefinition.vertices,
        forkedDefinition.parallelismOf v < 2 ^ 32) ∧
      forkedDefinition.edges.length < 2 ^ 64 ∧
      ∃ loaded t job, forkedDefinition.load (.sequential 0) = .ok loaded ∧
        ofJobGraph loaded.graph = .ok t ∧
        Job.ofDefinition (.sequential 0) forkedDefinition = .ok job ∧
        KeysNamePartitions forkedDefinition job := by
  have hok : forkedDefinition.validate = .ok () := by decide +kernel
  have hfresh : (IdSupply.sequential 0).Fresh 3 2 :=
    ⟨by decide +kernel, by decide +kernel⟩
  have hwords : ∀ v ∈ forkedDefinition.vertices,
      forkedDefinition.parallelismOf v < 2 ^ 32 := by
    decide +kernel
  have hedges : forkedDefinition.edges.length < 2 ^ 64 := by decide +kernel
  have hexpanded : ((forkedDefinition.load (.sequential 0)).toOption.map
      fun loaded => (ofJobGraph loaded.graph).isOk) = some true := by
    decide +kernel
  obtain ⟨loaded, t, hload, ht⟩ := exists_of_expanded hexpanded
  obtain ⟨job, hjob, -, -, hkeys⟩ :=
    keysNamePartitions_of_validate hok hfresh hwords hedges hload ht
  exact ⟨hok, hfresh, hwords, hedges, loaded, t, job, hload, ht, hjob, hkeys⟩

/-- The readers of the partitions of the second subtask, by key. The source
has no third output. -/
example : ((Job.ofDefinition (.sequential 0) forkedDefinition).toOption.map
    fun job => ["source:1", "source:1:0", "source:1:1", "source:1:2"].map
      fun key => (job.partitionId key).toOption.bind fun id =>
        (job.topology.partitionView id).toOption.map fun view =>
          (view.groups.reduceOption.flatMap (·.readers)).reduceOption.map
            job.taskKey) =
    some [some ["late:2", "late:3"], some ["late:2", "late:3"],
      some ["early:0", "early:1"], none] := by
  decide +kernel

end Inspection

end ControlPlane
