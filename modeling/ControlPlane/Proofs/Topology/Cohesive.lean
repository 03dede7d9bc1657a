import Mathlib
import ControlPlane.Proofs.Topology.CoLocation

/-!
# Rescaling keeps tasks together

A new subtask is wired like its sibling and joins the region of its sibling.
So no two regions get tasks that belong together, although no region is
computed again. For the same reason a job graph that could be run still can
be run with the new parallelism.
-/

namespace ControlPlane

/-! ## Job graphs -/

/-- A job graph can be run with more subtasks as it could be before. -/
theorem JobGraph.Widened.runnable {g g' : JobGraph} {id : VertexId} {n : Nat}
    (h : g.Widened id n g') (hg : g.WellFormed) (hrun : g.Runnable) :
    g'.Runnable where
  parallelism := by
    rw [h.vertices]
    intro v' hv'
    obtain ⟨v, hv, rfl⟩ := List.mem_map.mp hv'
    have hpositive := hrun.parallelism v hv
    split
    · rename_i hid
      have hle := h.le
      rw [← hid, hg.parallelismOf_eq hv] at hle
      exact Nat.lt_of_lt_of_le hpositive hle
    · exact hpositive
  acyclic := by
    have hleads : g'.LeadsTo = g.LeadsTo := by
      funext a b
      rw [LeadsTo, LeadsTo, h.edges_eq]
    rw [Acyclic, hleads]
    exact hrun.acyclic
  coLocated := h.coLocated hg hrun.parallelism hrun.coLocated

namespace Topology

/-- The task that a task is taken for: new ones are taken for the sibling. -/
def standIn (t : Topology) (sibling i : TaskIndex) : TaskIndex :=
  if i < t.tasks.size then i else sibling

/-- Tasks that belong together share a region. -/
def Cohesive (t : Topology) : Prop :=
  ∀ i j : Nat, i < t.tasks.size → j < t.tasks.size → t.Together i j →
    t.regionOf[i]? = t.regionOf[j]?

section Extend

variable {t t' : Topology} {o : Operator} {sibling n : Nat}

theorem Extended.widened (hext : Extended t o sibling n t') (h : t.Whole)
    (ho : o ∈ t.operators) :
    t.graph.Widened o.id (o.parallelism + n) t'.graph where
  wellFormed := hext.whole.graph
  vertices := hext.vertices
  shuffled := hext.shuffled
  le := by
    rw [h.parallelismOf_eq ho]
    exact Nat.le_add_right _ _

/-- The stand-in of a task has the id that its id is taken for. -/
theorem Extended.taskIdAt_standIn (hext : Extended t o sibling n t')
    (h : t.Whole) (ho : o ∈ t.operators) {b : TaskId}
    (hb : t.taskIdAt sibling = some b) (hvertex : b.vertex = o.id) {i : Nat}
    {id : TaskId} (hi : t'.taskIdAt i = some id) :
    t.taskIdAt (t.standIn sibling i) = some (JobGraph.takenFor o.id
      (t.graph.parallelismOf o.id) b.subtask id) := by
  rw [h.parallelismOf_eq ho]
  rw [hext.taskIdAt] at hi
  rw [standIn]
  split at hi
  · rename_i hlt
    rw [if_pos hlt, hi, JobGraph.takenFor, if_neg]
    rintro ⟨hid, hle⟩
    exact Nat.not_lt.mpr hle (h.staffed.subtask_lt ho hi hid)
  · rename_i hlt
    split at hi
    · cases hi
      rw [if_neg hlt, hb, JobGraph.takenFor,
        if_pos ⟨rfl, Nat.le_add_right _ _⟩, ← hvertex]
    · cases hi

/-- A task is in the region of its stand-in. -/
theorem Extended.regionOf_standIn (hext : Extended t o sibling n t')
    (h : t.Regioned) (hsibling : sibling < t.tasks.size) {i : Nat}
    (hi : i < t'.tasks.size) :
    t'.regionOf[i]? = t.regionOf[t.standIn sibling i]? := by
  obtain ⟨r, hr⟩ := h.exists_regionOf hsibling
  rw [hext.size] at hi
  rw [hext.regionOf_getElem? h hr, if_pos hi, standIn]
  split
  · rfl
  · exact hr.symm

theorem Extended.cohesive (hext : Extended t o sibling n t') (h : t.Whole)
    (hregioned : t.Regioned) (hcohesive : t.Cohesive) (ho : o ∈ t.operators)
    (hsibling : sibling ∈ o.tasks) : t'.Cohesive := by
  obtain ⟨b, hb, hvertex⟩ := (h.staffed.mem_tasks ho).mp hsibling
  have hlt := lt_of_taskIdAt hb
  intro i j hi hj htogether
  obtain ⟨id, hid⟩ := exists_taskIdAt hi
  obtain ⟨id', hid'⟩ := exists_taskIdAt hj
  have hstand := hext.taskIdAt_standIn h ho hb hvertex hid
  have hstand' := hext.taskIdAt_standIn h ho hb hvertex hid'
  have hsubtask : b.subtask < t.graph.parallelismOf o.id :=
    hvertex ▸ h.exists_taskIdAt_iff.mp ⟨sibling, hb⟩
  rw [hext.whole.together_iff hid hid'] at htogether
  have hbefore := (hext.widened h ho).together_takenFor h.graph hsubtask
    htogether
  rw [hext.regionOf_standIn hregioned hlt hi,
    hext.regionOf_standIn hregioned hlt hj]
  exact hcohesive _ _ (lt_of_taskIdAt hstand) (lt_of_taskIdAt hstand')
    ((h.together_iff hstand hstand').mpr hbefore)

end Extend

theorem Attempted.cohesive {t t' : Topology} {i : Nat} {a : Attempt}
    (ha : Attempted t i a t') (h : t.Cohesive) : t'.Cohesive := by
  intro j k hj hk htogether
  rw [Together, ha.links.taskArc, ha.links.taskIdAt, ha.staff.graph]
    at htogether
  rw [ha.regionOf]
  exact h j k (ha.size ▸ hj) (ha.size ▸ hk) htogether

/-- The regions of all reachable topologies keep together what belongs
together. -/
theorem Reachable.cohesive {t : Topology} (h : t.Reachable) :
    t.Cohesive := by
  induction h with
  | built hg h =>
    obtain ⟨t0, hwhole, -, rfl⟩ := exists_of_ofJobGraph hg.wellFormed h
    intro i j hi hj
    exact (hwhole.partitioned_computeRegions.shared i j hi hj).mpr
  | @call t h c ih =>
    rcases h.whole.call_cases c with
      heq | ⟨i, a, -, ha⟩ | ⟨o, i, n, ho, hi, hext⟩
    · rw [heq]
      exact ih
    · exact ha.cohesive ih
    · exact hext.cohesive h.whole h.regioned ih ho hi

/-- The job graph of a reachable topology can be run. -/
theorem Reachable.runnable {t : Topology} (h : t.Reachable) :
    t.graph.Runnable := by
  induction h with
  | built hg h =>
    obtain ⟨t0, -, hgraph, rfl⟩ := exists_of_ofJobGraph hg.wellFormed h
    rw [graph_computeRegions, hgraph]
    exact (exists_ofJobGraph_iff hg.wellFormed).mp ⟨_, h⟩
  | @call t h c ih =>
    rcases h.whole.call_cases c with
      heq | ⟨i, a, -, ha⟩ | ⟨o, i, n, ho, -, hext⟩
    · rw [heq]
      exact ih
    · rw [ha.staff.graph]
      exact ih
    · exact (hext.widened h.whole ho).runnable h.whole.graph ih

/-! ## Co-located subtasks -/

theorem Indexed.regionOfTask_eq_ok {t : Topology} (h : t.Indexed) {i r : Nat}
    {id : TaskId} {region : PipelinedRegion} (hi : t.taskIdAt i = some id)
    (hr : t.regionOf[i]? = some r) (hregion : t.regions[r]? = some region) :
    t.regionOfTask id = .ok region := by
  rw [regionOfTask, h.taskAt_eq_ok.mpr hi]
  simp [bind, Except.bind, hr, hregion, pure, Except.pure]

/-- Equal subtasks of co-located vertices share a region, however many there
are by now. -/
theorem Reachable.regionOf_eq_of_coLocated {t : Topology} (h : t.Reachable)
    {v w : JobVertex} (hv : v ∈ t.graph.vertices) (hw : w ∈ t.graph.vertices)
    {group : String} (hvgroup : v.coLocationGroup = some group)
    (hwgroup : w.coLocationGroup = some group) {i j k : Nat}
    (hi : t.taskIdAt i = some ⟨v.id, k⟩) (hj : t.taskIdAt j = some ⟨w.id, k⟩) :
    t.regionOf[i]? = t.regionOf[j]? := by
  have hvk := h.whole.exists_taskIdAt_iff.mp ⟨i, hi⟩
  have hwk := h.whole.exists_taskIdAt_iff.mp ⟨j, hj⟩
  rw [h.whole.graph.parallelismOf_eq hv] at hvk
  rw [h.whole.graph.parallelismOf_eq hw] at hwk
  have htogether :=
    h.runnable.coLocated v hv w hw group hvgroup hwgroup k hvk hwk
  exact h.cohesive i j (lt_of_taskIdAt hi) (lt_of_taskIdAt hj)
    ((h.whole.together_iff hi hj).mpr htogether)

/-- A vertex keeps everything but its parallelism. -/
theorem Whole.exists_vertex_run {t : Topology} (h : t.Whole) (c : Call)
    {v : JobVertex} (hv : v ∈ t.graph.vertices) :
    ∃ n, { v with parallelism := n } ∈ (c.run t).graph.vertices := by
  rcases h.call_cases c with heq | ⟨i, a, -, ha⟩ | ⟨o, i, n, -, -, hext⟩
  · rw [heq]
    exact ⟨_, hv⟩
  · rw [ha.staff.graph]
    exact ⟨_, hv⟩
  · rw [hext.vertices]
    have hmem := List.mem_map_of_mem (f := fun w : JobVertex =>
      if w.id = o.id then { w with parallelism := o.parallelism + n } else w) hv
    by_cases hid : v.id = o.id
    · rw [if_pos hid] at hmem
      exact ⟨_, hmem⟩
    · rw [if_neg hid] at hmem
      exact ⟨_, hmem⟩

theorem Reachable.exists_vertex_runAll {t : Topology} (h : t.Reachable)
    (calls : List Call) {v : JobVertex} (hv : v ∈ t.graph.vertices) :
    ∃ n, { v with parallelism := n } ∈ (t.runAll calls).graph.vertices := by
  induction calls generalizing t v with
  | nil => exact ⟨_, hv⟩
  | cons c calls ih =>
    obtain ⟨n, hn⟩ := h.whole.exists_vertex_run c hv
    exact ih (h.call c) (v := { v with parallelism := n }) hn

/-- After any calls, equal subtasks of the vertices of a co-location group
share a region, those included that were added since the check was made. -/
theorem coLocated_runAll {g : JobGraph} (hg : g.Built) {t : Topology}
    (h : ofJobGraph g = .ok t) (calls : List Call) :
    ∀ v ∈ g.vertices, ∀ w ∈ g.vertices, ∀ group,
      v.coLocationGroup = some group → w.coLocationGroup = some group →
      ∃ o o', (t.runAll calls).operator v.id = .ok o ∧
        (t.runAll calls).operator w.id = .ok o' ∧
        ∀ k, k < o.parallelism → k < o'.parallelism → ∃ region,
          (t.runAll calls).regionOfTask ⟨v.id, k⟩ = .ok region ∧
          (t.runAll calls).regionOfTask ⟨w.id, k⟩ = .ok region := by
  intro v hv w hw group hvgroup hwgroup
  have hstart := Reachable.built hg h
  obtain ⟨t0, -, hgraph, rfl⟩ := exists_of_ofJobGraph hg.wellFormed h
  rw [← hgraph, ← graph_computeRegions] at hv hw
  have hrun := hstart.runAll calls
  have hwhole := hrun.whole
  obtain ⟨n, hvn⟩ := hstart.exists_vertex_runAll calls hv
  obtain ⟨m, hwm⟩ := hstart.exists_vertex_runAll calls hw
  obtain ⟨o, ho, hoid, -⟩ := hwhole.exists_operator hvn
  obtain ⟨o', ho', hoid', -⟩ := hwhole.exists_operator hwm
  dsimp only at hoid hoid'
  refine ⟨o, o', hwhole.staffed.operator_eq_ok.mpr ⟨ho, hoid⟩,
    hwhole.staffed.operator_eq_ok.mpr ⟨ho', hoid'⟩, fun k hk hk' => ?_⟩
  rw [← hwhole.parallelismOf_eq ho, hoid] at hk
  rw [← hwhole.parallelismOf_eq ho', hoid'] at hk'
  obtain ⟨i, hi⟩ : ∃ i, (t0.computeRegions.runAll calls).taskIdAt i =
      some ⟨v.id, k⟩ := hwhole.exists_taskIdAt_iff.mpr hk
  obtain ⟨j, hj⟩ : ∃ j, (t0.computeRegions.runAll calls).taskIdAt j =
      some ⟨w.id, k⟩ := hwhole.exists_taskIdAt_iff.mpr hk'
  have hsame := hrun.regionOf_eq_of_coLocated hvn hwm hvgroup hwgroup hi hj
  obtain ⟨r, hr⟩ := hrun.regioned.exists_regionOf (lt_of_taskIdAt hi)
  have hregion := Array.getElem?_eq_getElem (hrun.regioned.lt i r hr)
  have hindexed := hwhole.wired.indexed
  exact ⟨_, hindexed.regionOfTask_eq_ok hi hr hregion,
    hindexed.regionOfTask_eq_ok hj (hsame.symm.trans hr) hregion⟩

/-- Two sources and two sinks that are co-located and stream their data. -/
def pairedGraph : JobGraph :=
  let graph : Except Error JobGraph := do
    let g ← sampleVertices.connect ⟨⟨3⟩⟩ sampleSource sampleSink .allToAll
      .pipelined
    let g ← g.setCoLocationGroup sampleSource "pair"
    g.setCoLocationGroup sampleSink "pair"
  graph.toOption.getD sampleVertices

theorem built_pairedGraph : pairedGraph.Built := by
  have hok : (do
      let g ← sampleVertices.connect ⟨⟨3⟩⟩ sampleSource sampleSink .allToAll
        .pipelined
      let g ← g.setCoLocationGroup sampleSource "pair"
      g.setCoLocationGroup sampleSink "pair") = Except.ok pairedGraph := rfl
  obtain ⟨g, hconnect, hrest⟩ := bind_eq_ok_iff.mp hok
  obtain ⟨g', hsource, hsink⟩ := bind_eq_ok_iff.mp hrest
  exact .setCoLocationGroup (.setCoLocationGroup
    (.connect built_sampleVertices (by decide) hconnect) hsource) hsink

/-- The topology of the co-located operators. -/
def paired : Topology :=
  (ofJobGraph pairedGraph).toOption.getD { graph := pairedGraph }

theorem ofJobGraph_pairedGraph : ofJobGraph pairedGraph = .ok paired :=
  eq_ok_getD (by decide +kernel) _

/-- The third source and the third sink share a region, both of which were
added later. -/
theorem coLocated_grown_paired :
    let t := paired.runAll [.extendRegion ⟨sampleSink, 0⟩ 1,
      .extendRegion ⟨sampleSource, 1⟩ 1]
    ∃ region, t.regionOfTask ⟨sampleSource, 2⟩ = .ok region ∧
      t.regionOfTask ⟨sampleSink, 2⟩ = .ok region := by
  intro t
  have hgroups : pairedGraph.vertices.map (fun v => (v.id, v.coLocationGroup)) =
      [(sampleSource, some "pair"), (sampleSink, some "pair")] := by
    decide +kernel
  have hmem : ∀ id ∈ [sampleSource, sampleSink], ∃ v ∈ pairedGraph.vertices,
      v.id = id ∧ v.coLocationGroup = some "pair" := by
    intro id hid
    have hpair : (id, some "pair") ∈ pairedGraph.vertices.map
        fun v => (v.id, v.coLocationGroup) := by
      rw [hgroups]
      simpa using hid
    obtain ⟨v, hv, heq⟩ := List.mem_map.mp hpair
    exact ⟨v, hv, congrArg Prod.fst heq, congrArg Prod.snd heq⟩
  have hgrown : ∀ id ∈ [sampleSource, sampleSink],
      (t.operator id).toOption.any (2 < ·.parallelism) = true := by
    decide +kernel
  obtain ⟨v, hv, hvid, hvgroup⟩ := hmem sampleSource (by simp)
  obtain ⟨w, hw, hwid, hwgroup⟩ := hmem sampleSink (by simp)
  obtain ⟨o, o', ho, ho', hshared⟩ := coLocated_runAll built_pairedGraph
    ofJobGraph_pairedGraph _ v hv w hw "pair" hvgroup hwgroup
  rw [hvid] at ho hshared
  rw [hwid] at ho' hshared
  have hsource := hgrown sampleSource (by simp)
  have hsink := hgrown sampleSink (by simp)
  rw [ho] at hsource
  rw [ho'] at hsink
  exact hshared 2 (of_decide_eq_true hsource) (of_decide_eq_true hsink)

end Topology

end ControlPlane
