import Mathlib
import ControlPlane.Topology.Build
import ControlPlane.Proofs.JobGraph.Acyclic
import ControlPlane.Proofs.Topology.Laid

/-!
# Building a topology

Vertices are expanded one after the other, producers first. Along the way
the connected edges are the inputs of the operators there are; at the end
every vertex has its operator, and these are all the edges of the graph.
-/

namespace ControlPlane

namespace Topology

/-! ## Vertices -/

/-- What holds of a topology whose operators are expanded, be they all of
the vertices or only the first. -/
structure Sound (t : Topology) : Prop where
  graph : t.graph.WellFormed
  parallelism : ∀ v ∈ t.graph.vertices, 0 < v.parallelism
  wired : t.Wired (t.operators.flatMap (·.inputs))
  staffed : t.Staffed
  owned : ∀ i id, t.taskIdAt i = some id →
    ∃ o ∈ t.operators, o.id = id.vertex
  laid : ∀ o ∈ t.operators, ∀ e ∈ o.inputs, ∀ o' ∈ t.operators,
    o'.id = e.producer → t.LaidAlong e o'.tasks o.tasks

section Vertices

variable {t : Topology}

theorem Staffed.inputs_eq (h : t.Staffed) {o : Operator}
    (ho : o ∈ t.operators) :
    ∃ v ∈ t.graph.vertices, v.id = o.id ∧ v.inputs = o.inputs := by
  obtain ⟨v, hv, hov⟩ := h.vertex o ho
  refine ⟨v, hv, ?_, ?_⟩ <;> rw [hov] <;> rfl

theorem Sound.parallelism_pos (h : t.Sound) {o : Operator}
    (ho : o ∈ t.operators) : 0 < o.parallelism := by
  obtain ⟨v, hv, hov⟩ := h.staffed.vertex o ho
  have hparallelism : o.parallelism = v.parallelism :=
    congrArg Operator.parallelism hov
  exact hparallelism ▸ h.parallelism v hv

theorem Sound.tasks_ne_nil (h : t.Sound) {o : Operator}
    (ho : o ∈ t.operators) : o.tasks ≠ [] := by
  rw [← List.length_pos_iff, h.staffed.length_tasks ho]
  exact h.parallelism_pos ho

/-- The connected edges stay among the operators. -/
theorem Sound.edge_of_mem (h : t.Sound) {e : JobEdge}
    (he : e ∈ t.operators.flatMap (·.inputs)) :
    e ∈ t.graph.edges ∧ (∃ o ∈ t.operators, o.id = e.target) ∧
      ∃ o ∈ t.operators, o.id = e.producer := by
  obtain ⟨o, ho, he⟩ := List.mem_flatMap.mp he
  obtain ⟨v, hv, hid, hinputs⟩ := h.staffed.inputs_eq ho
  rw [← hinputs] at he
  refine ⟨JobGraph.mem_edges.mpr ⟨v, hv, he⟩, ⟨o, ho, ?_⟩,
    h.staffed.exists_producer ho (hinputs ▸ he)⟩
  rw [h.graph.target v hv e he, hid]

/-- Tasks of another vertex do not touch the staff. -/
theorem Staffed.hire (h : t.Staffed) {t' : Topology} {vertex : VertexId}
    {n : Nat} (hh : t.Hired vertex n t')
    (fresh : ∀ o ∈ t.operators, o.id ≠ vertex) : t'.Staffed where
  operatorIndex := by
    rw [hh.operatorIndex, hh.operators]
    exact h.operatorIndex
  vertex := by
    rw [hh.operators, hh.graph]
    exact h.vertex
  tasks := by
    rw [hh.operators]
    intro o ho
    rw [hh.appends.map_taskIdAt_old h ho]
    exact h.tasks o ho
  complete := by
    rw [hh.operators]
    intro o ho i id hi hv
    rcases hh.appends.taskIdAt_cases hi with hold | ⟨k, -, -, rfl⟩
    · exact h.complete o ho i id hold hv
    · exact absurd hv.symm (fresh o ho)
  producer := by
    rw [hh.operators]
    exact h.producer

/-- The numbers of new subtasks are behind the old ones. -/
theorem Hired.mem_tasks {t' : Topology} {vertex : VertexId} {n : Nat}
    (hh : t.Hired vertex n t')
    (fresh : ∀ i id, t.taskIdAt i = some id → id.vertex ≠ vertex) (i : Nat) :
    i ∈ (List.range n).map (t.tasks.size + ·) ↔
      ∃ id, t'.taskIdAt i = some id ∧ id.vertex = vertex := by
  simp only [List.mem_map, List.mem_range]
  constructor
  · rintro ⟨k, hk, rfl⟩
    exact ⟨_, hh.appends.taskIdAt_new hk, rfl⟩
  · rintro ⟨id, hid, hv⟩
    rcases hh.appends.taskIdAt_cases hid with hold | ⟨k, hk, rfl, -⟩
    · exact absurd hv (fresh i id hold)
    · exact ⟨k, hk, rfl⟩

/-- What holds while the inputs of a vertex are connected to its subtasks. -/
structure Connecting (t t1 : Topology) (tasks : List TaskIndex)
    (pre : List JobEdge) (s : Topology) : Prop where
  wired : s.Wired (t.operators.flatMap (·.inputs) ++ pre)
  staff : SameStaff t1 s
  producers : ∀ e ∈ pre, ∃ o ∈ t.operators, o.id = e.producer
  keeps_laid : ∀ e ∈ t.operators.flatMap (·.inputs), ∀ a b,
    t.LaidAlong e a b → s.LaidAlong e a b
  laid : ∀ e ∈ pre, ∀ o ∈ t.operators, o.id = e.producer →
    s.LaidAlong e o.tasks tasks

theorem Connecting.graph_eq {t1 s : Topology} {tasks : List TaskIndex}
    {pre : List JobEdge} {vertex : VertexId} {n : Nat}
    (hs : t.Connecting t1 tasks pre s) (hh : t.Hired vertex n t1) :
    s.graph = t.graph :=
  hs.staff.graph.trans hh.graph

theorem Connecting.operators_eq {t1 s : Topology} {tasks : List TaskIndex}
    {pre : List JobEdge} {vertex : VertexId} {n : Nat}
    (hs : t.Connecting t1 tasks pre s) (hh : t.Hired vertex n t1) :
    s.operators = t.operators :=
  hs.staff.operators.trans hh.operators

/-- A vertex without an operator has no tasks. -/
theorem Sound.vertex_ne_of_fresh (h : t.Sound) {vertex : VertexId}
    (fresh : ∀ o ∈ t.operators, o.id ≠ vertex) :
    ∀ i id, t.taskIdAt i = some id → id.vertex ≠ vertex := by
  intro i id hi
  obtain ⟨o, ho, hid⟩ := h.owned i id hi
  rw [← hid]
  exact fresh o ho

section Inputs

variable (h : t.Sound) {v : JobVertex} (hv : v ∈ t.graph.vertices)
  (fresh : ∀ o ∈ t.operators, o.id ≠ v.id) {t1 : Topology}
  (hh : t.Hired v.id v.parallelism t1)

include h hv fresh in
/-- An input of a new vertex comes behind the edges connected so far. -/
theorem Sound.source_ne_of_input {pre post : List JobEdge} {e : JobEdge}
    (hinputs : v.inputs = pre ++ e :: post) :
    ∀ e' ∈ t.operators.flatMap (·.inputs) ++ pre, e'.source ≠ e.source := by
  have he : e ∈ v.inputs := by simp [hinputs]
  have hedge : e ∈ t.graph.edges := JobGraph.mem_edges.mpr ⟨v, hv, he⟩
  intro e' he' heq
  rcases List.mem_append.mp he' with he' | he'
  · obtain ⟨hedge', ⟨o, ho, hid⟩, -⟩ := h.edge_of_mem he'
    have hsame := h.graph.edge_inj hedge' hedge heq
    rw [hsame, h.graph.target v hv e he] at hid
    exact fresh o ho hid
  · have hedge' : e' ∈ t.graph.edges :=
      JobGraph.mem_edges.mpr ⟨v, hv, by simp [hinputs, he']⟩
    have hsame := h.graph.edge_inj hedge' hedge heq
    have hnodup : v.inputs.Nodup :=
      (List.nodup_flatMap.mp (List.Nodup.of_map _ h.graph.sources)).1 v hv
    rw [hinputs, List.nodup_append] at hnodup
    exact hnodup.2.2 e' he' e List.mem_cons_self hsame

include h hv fresh hh

/-- One more input of a vertex is connected. -/
theorem Sound.connecting_snoc {pre post : List JobEdge} {e : JobEdge}
    (hinputs : v.inputs = pre ++ e :: post) {s s' : Topology}
    (hs : t.Connecting t1 ((List.range v.parallelism).map (t.tasks.size + ·))
      pre s)
    (hstep : connectInput ((List.range v.parallelism).map (t.tasks.size + ·))
      s e = .ok s') :
    t.Connecting t1 ((List.range v.parallelism).map (t.tasks.size + ·))
      (pre ++ [e]) s' := by
  have hgraph := hs.graph_eq hh
  have hoperators := hs.operators_eq hh
  have hpositive : 0 < v.parallelism := h.parallelism v hv
  have hne : (List.range v.parallelism).map (t.tasks.size + ·) ≠ [] := by
    simp [Nat.ne_of_gt hpositive]
  have hnodup : ((List.range v.parallelism).map
      (t.tasks.size + ·)).Nodup :=
    List.nodup_range.map fun a b hab => by
      simpa using hab
  have he : e ∈ v.inputs := by simp [hinputs]
  have hedge : e ∈ t.graph.edges := JobGraph.mem_edges.mpr ⟨v, hv, he⟩
  have hnew := h.source_ne_of_input hv fresh hinputs
  have hstaffed := (h.staffed.hire hh fresh).congr hs.staff
  obtain ⟨o, ho, hid, hconnected⟩ := hs.wired.connectInput hstaffed
    (hgraph ▸ h.graph) (hgraph ▸ h.parallelism) (hgraph ▸ hedge) hnew hnodup
    hne (by
      intro i
      rw [hs.staff.taskIdAt, h.graph.target v hv e he]
      exact hh.mem_tasks (h.vertex_ne_of_fresh fresh) i) hstep
  refine ⟨?_, hs.staff.trans hconnected.staff, ?_, ?_, ?_⟩
  · rw [← List.append_assoc]
    exact hconnected.wired
  · intro e' he'
    rcases List.mem_append.mp he' with he' | he'
    · exact hs.producers e' he'
    · cases List.mem_singleton.mp he'
      exact ⟨o, hoperators ▸ ho, hid⟩
  · intro e' he' a b hlaid
    exact hconnected.keeps_laid hs.wired
      (hnew e' (List.mem_append_left _ he')) (hs.keeps_laid e' he' a b hlaid)
  · intro e' he' o' ho' hid'
    rcases List.mem_append.mp he' with he' | he'
    · exact hconnected.keeps_laid hs.wired
        (hnew e' (List.mem_append_right _ he')) (hs.laid e' he' o' ho' hid')
    · cases List.mem_singleton.mp he'
      have hsame := hstaffed.operator_inj (hoperators ▸ ho') ho
        (hid'.trans hid.symm)
      exact hsame ▸ hconnected.laid hs.wired hnew

variable (hwired : t1.Wired (t.operators.flatMap (·.inputs)))

omit h hv fresh in
include hwired in
theorem connecting_start :
    t.Connecting t1 ((List.range v.parallelism).map (t.tasks.size + ·))
      [] t1 := by
  refine ⟨?_, .refl t1, by simp, fun e _ a b hlaid =>
    hh.sameGroups.laid hlaid, by simp⟩
  rwa [List.append_nil]

include hwired

/-- All inputs of a vertex are connected to its new subtasks. -/
theorem Sound.connectInputs {t2 : Topology}
    (hok : v.inputs.foldlM (connectInput
      ((List.range v.parallelism).map (t.tasks.size + ·))) t1 = .ok t2) :
    t.Connecting t1 ((List.range v.parallelism).map (t.tasks.size + ·))
      v.inputs t2 :=
  foldlM_ok_induction (P := t.Connecting t1 _)
    (fun _ _ _ hinputs _ _ hs hstep =>
      h.connecting_snoc hv fresh hh hinputs hs hstep)
    (connecting_start hh hwired) hok

/-- The inputs of a vertex can be connected once its producers are there. -/
theorem Sound.exists_connectInputs
    (hproducers : ∀ e ∈ v.inputs, ∃ o ∈ t.operators, o.id = e.producer) :
    ∃ t2, v.inputs.foldlM (connectInput
      ((List.range v.parallelism).map (t.tasks.size + ·))) t1 = .ok t2 := by
  refine (exists_foldlM_ok (P := t.Connecting t1
    ((List.range v.parallelism).map (t.tasks.size + ·))) ?_
    (connecting_start hh hwired)).imp fun _ hloop => hloop.1
  intro pre e post hinputs s hs
  have he : e ∈ v.inputs := by simp [hinputs]
  obtain ⟨o, ho, hid⟩ := hproducers e he
  have hedge : e ∈ s.graph.edges := by
    rw [hs.graph_eq hh]
    exact JobGraph.mem_edges.mpr ⟨v, hv, he⟩
  have hstep := hs.wired.connectInput_eq_ok
    ((h.staffed.hire hh fresh).congr hs.staff) hedge
    (hs.operators_eq hh ▸ ho) hid
    ((List.range v.parallelism).map (t.tasks.size + ·))
  exact ⟨_, hstep, h.connecting_snoc hv fresh hh hinputs hs hstep⟩

end Inputs

/-- The first subtasks of a vertex keep the links exact. -/
theorem Sound.wired_addSubtasks (h : t.Sound) {id : VertexId}
    (fresh : ∀ o ∈ t.operators, o.id ≠ id) (n : Nat) :
    ((List.range n).foldl (Topology.addSubtask id (t.graph.outputsOf id))
      t).Wired (t.operators.flatMap (·.inputs)) := by
  refine h.wired.addSubtasks h.graph ?_ ?_ n
  · intro e he
    obtain ⟨hedge, ⟨o, ho, hid⟩, o', ho', hid'⟩ := h.edge_of_mem he
    exact ⟨hedge, hid ▸ fresh o ho, hid' ▸ fresh o' ho'⟩
  · exact h.vertex_ne_of_fresh fresh

/-! ## One more operator -/

/-- The topology with the operator of a vertex behind the others. -/
def place (t : Topology) (v : JobVertex) (tasks : List TaskIndex) : Topology :=
  { t with
    operators := t.operators ++ [v.operator tasks]
    operatorIndex := t.operatorIndex.insert v.id t.operators.length }

section Place

variable {v : JobVertex} {t1 t2 : Topology}
  (hh : t.Hired v.id v.parallelism t1)
  (hc : t.Connecting t1 ((List.range v.parallelism).map (t.tasks.size + ·))
    v.inputs t2)

include hh hc

theorem operators_place (tasks : List TaskIndex) :
    (t2.place v tasks).operators = t.operators ++ [v.operator tasks] := by
  rw [place, hc.operators_eq hh]

theorem mem_operators_place {tasks : List TaskIndex} {o : Operator} :
    o ∈ (t2.place v tasks).operators ↔
      o ∈ t.operators ∨ o = v.operator tasks := by
  rw [operators_place hh hc, List.mem_append, List.mem_singleton]

theorem appends_place (tasks : List TaskIndex) :
    t.Appends v.id 0 v.parallelism (t2.place v tasks) := fun i =>
  (hc.staff.taskIdAt i).trans (hh.appends i)

variable (h : t.Sound) (fresh : ∀ o ∈ t.operators, o.id ≠ v.id)

include h

/-- The producers of an operator stand before it. -/
theorem Sound.producer_place {tasks : List TaskIndex} {q : Nat} {o : Operator}
    (hq : (t2.place v tasks).operators[q]? = some o) {e : JobEdge}
    (he : e ∈ o.inputs) :
    ∃ p < q, ∃ o', (t2.place v tasks).operators[p]? = some o' ∧
      o'.id = e.producer := by
  rw [operators_place hh hc] at hq ⊢
  have hpre : ∀ {p : Nat} {o' : Operator}, t.operators[p]? = some o' →
      (t.operators ++ [v.operator tasks])[p]? = some o' := by
    intro p o' hp
    rwa [List.getElem?_append_left (List.getElem?_eq_some_iff.mp hp).1]
  rcases Nat.lt_or_ge q t.operators.length with hlt | hge
  · rw [List.getElem?_append_left hlt] at hq
    obtain ⟨p, hp, o', ho', hid⟩ := h.staffed.producer q o hq e he
    exact ⟨p, hp, o', hpre ho', hid⟩
  · rw [List.getElem?_append_right hge, List.getElem?_singleton] at hq
    split at hq
    · cases hq
      obtain ⟨o', ho', hid⟩ := hc.producers e he
      obtain ⟨p, hp⟩ := List.mem_iff_getElem?.mp ho'
      exact ⟨p, Nat.lt_of_lt_of_le (List.getElem?_eq_some_iff.mp hp).1 hge,
        o', hpre hp, hid⟩
    · cases hq

/-- A task is an old one, or one of the new operator. -/
theorem Sound.owned_place {tasks : List TaskIndex} {i : Nat} {id : TaskId}
    (hi : (t2.place v tasks).taskIdAt i = some id) :
    ∃ o ∈ (t2.place v tasks).operators, o.id = id.vertex := by
  rcases (appends_place hh hc tasks).taskIdAt_cases hi with
    hold | ⟨k, -, -, rfl⟩
  · obtain ⟨o, ho, hid⟩ := h.owned i id hold
    exact ⟨o, (mem_operators_place hh hc).mpr (.inl ho), hid⟩
  · exact ⟨_, (mem_operators_place hh hc).mpr (.inr rfl), rfl⟩

include fresh

/-- The new operator staffs its vertex. -/
theorem Sound.staffed_place (hv : v ∈ t.graph.vertices) :
    (t2.place v ((List.range v.parallelism).map
      (t.tasks.size + ·))).Staffed := by
  set tasks := (List.range v.parallelism).map (t.tasks.size + ·)
  have happends := appends_place hh hc tasks
  refine ⟨?_, fun o ho => ?_, fun o ho => ?_, fun o ho i id hi hid => ?_,
    fun _ _ hq _ he => h.producer_place hh hc hq he⟩
  · exact ((h.staffed.hire hh fresh).congr hc.staff).operatorIndex.append
      (f := Operator.id) (x := v.operator tasks) (by
        rw [hc.operators_eq hh]
        exact fresh)
  · have hgraph : (t2.place v tasks).graph = t.graph := hc.graph_eq hh
    rw [hgraph]
    rcases (mem_operators_place hh hc).mp ho with ho | rfl
    · exact h.staffed.vertex o ho
    · exact ⟨v, hv, rfl⟩
  · rcases (mem_operators_place hh hc).mp ho with ho | rfl
    · rw [happends.map_taskIdAt_old h.staffed ho]
      exact h.staffed.tasks o ho
    · have hnew := happends.map_taskIdAt_new
      simp only [Nat.zero_add] at hnew
      exact hnew
  · rcases (mem_operators_place hh hc).mp ho with ho | rfl
    · rcases happends.taskIdAt_cases hi with hold | ⟨k, -, -, rfl⟩
      · exact h.staffed.complete o ho i id hold hid
      · exact absurd hid.symm (fresh o ho)
    · rw [show (t2.place v tasks).taskIdAt i = t1.taskIdAt i from
        hc.staff.taskIdAt i] at hi
      exact (hh.mem_tasks (h.vertex_ne_of_fresh fresh) i).mpr ⟨id, hi, hid⟩

/-- All edges are laid out, those of the new operator included. -/
theorem Sound.laid_place {o o' : Operator} {e : JobEdge} :
    let tasks := (List.range v.parallelism).map (t.tasks.size + ·)
    o ∈ (t2.place v tasks).operators → e ∈ o.inputs →
      o' ∈ (t2.place v tasks).operators → o'.id = e.producer →
      (t2.place v tasks).LaidAlong e o'.tasks o.tasks := by
  intro tasks ho he ho' hid
  have hsame : SameGroups t2 (t2.place v tasks) :=
    ⟨rfl, rfl, rfl, Nat.le_refl _, fun _ _ => rfl⟩
  apply hsame.laid
  -- No edge that is connected comes from the new vertex.
  have hproducer : ∃ x ∈ t.operators, x.id = e.producer := by
    rcases (mem_operators_place hh hc).mp ho with ho | rfl
    · exact h.staffed.exists_producer ho he
    · exact hc.producers e he
  obtain ⟨x, hx, hxid⟩ := hproducer
  have hold : o' ∈ t.operators := by
    refine ((mem_operators_place hh hc).mp ho').resolve_right ?_
    rintro rfl
    exact fresh x hx (hxid.trans hid.symm)
  rcases (mem_operators_place hh hc).mp ho with ho | rfl
  · exact hc.keeps_laid e (List.mem_flatMap.mpr ⟨o, ho, he⟩) _ _
      (h.laid o ho e he o' hold hid)
  · exact hc.laid e he o' hold hid

theorem Sound.place (hv : v ∈ t.graph.vertices) :
    (t2.place v ((List.range v.parallelism).map
      (t.tasks.size + ·))).Sound := by
  set tasks := (List.range v.parallelism).map (t.tasks.size + ·)
  have hgraph : (t2.place v tasks).graph = t.graph := hc.graph_eq hh
  have hwired : (t2.place v tasks).Wired
      ((t2.place v tasks).operators.flatMap (·.inputs)) := by
    rw [operators_place hh hc, List.flatMap_append, List.flatMap_singleton]
    exact hc.wired.congr
      ⟨rfl, rfl, rfl, rfl, rfl, rfl, rfl, rfl, rfl, rfl⟩ fun _ _ _ => rfl
  exact
    { graph := hgraph ▸ h.graph
      parallelism := hgraph ▸ h.parallelism
      wired := hwired
      staffed := h.staffed_place hh hc fresh hv
      owned := fun _ _ => h.owned_place hh hc
      laid := fun _ ho _ he _ => h.laid_place hh hc fresh ho he }

end Place

/-- Expanding one more vertex. -/
theorem Sound.addOperator (h : t.Sound) {id : VertexId}
    (fresh : ∀ o ∈ t.operators, o.id ≠ id) {t' : Topology}
    (hok : addOperator t id = .ok t') :
    t'.Sound ∧ t'.graph = t.graph ∧
      ∃ o : Operator, o.id = id ∧ t'.operators = t.operators ++ [o] := by
  obtain ⟨v, hvertex, hrest⟩ := bind_eq_ok_iff.mp hok
  obtain ⟨t2, hinputs, hret⟩ := bind_eq_ok_iff.mp hrest
  obtain ⟨hv, rfl⟩ := h.graph.vertex_eq_ok.mp hvertex
  have hh := hired_addSubtasks t v.id (t.graph.outputsOf v.id) v.parallelism
  have hc := h.connectInputs hv fresh hh
    (h.wired_addSubtasks fresh v.parallelism) hinputs
  cases hret
  exact ⟨h.place hh hc fresh hv, hc.graph_eq hh, _, rfl,
    operators_place hh hc _⟩

/-- A vertex can be expanded once its producers are. -/
theorem Sound.exists_addOperator (h : t.Sound) {v : JobVertex}
    (hv : v ∈ t.graph.vertices) (fresh : ∀ o ∈ t.operators, o.id ≠ v.id)
    (hproducers : ∀ e ∈ v.inputs, ∃ o ∈ t.operators, o.id = e.producer) :
    ∃ t', Topology.addOperator t v.id = .ok t' := by
  obtain ⟨t2, hinputs⟩ := h.exists_connectInputs hv fresh
    (hired_addSubtasks t v.id (t.graph.outputsOf v.id) v.parallelism)
    (h.wired_addSubtasks fresh v.parallelism) hproducers
  have hvertex := h.graph.vertex_eq_ok.mpr ⟨hv, rfl⟩
  simp [Topology.addOperator, hvertex, hinputs, bind, Except.bind, pure,
    Except.pure]

/-- Soundness only depends on links and staff. -/
theorem Sound.congr (h : t.Sound) {t' : Topology} (hl : SameLinks t t')
    (hs : SameStaff t t') : t'.Sound where
  graph := by
    rw [hs.graph]
    exact h.graph
  parallelism := by
    rw [hs.graph]
    exact h.parallelism
  wired := by
    rw [hs.operators]
    exact h.wired.congr hl fun i _ _ => hs.outputs i
  staffed := h.staffed.congr hs
  owned := by
    rw [hs.operators, hl.taskIdAt]
    exact h.owned
  laid := by
    rw [hs.operators]
    intro o ho e he o' ho' hid
    exact hl.laid (h.laid o ho e he o' ho' hid)

end Vertices

/-! ## The whole graph -/

/-- What holds of a topology in which every vertex has its operator. -/
structure Whole (t : Topology) : Prop extends t.Sound where
  ids : (t.operators.map (·.id)).Perm (t.graph.vertices.map (·.id))

section Whole

variable {t : Topology}

theorem Whole.exists_operator (h : t.Whole) {v : JobVertex}
    (hv : v ∈ t.graph.vertices) :
    ∃ o ∈ t.operators, o.id = v.id ∧ o = v.operator o.tasks := by
  have hmem := h.ids.mem_iff.mpr (List.mem_map_of_mem (f := (·.id)) hv)
  obtain ⟨o, ho, hid⟩ := List.mem_map.mp hmem
  obtain ⟨w, hw, how⟩ := h.staffed.vertex o ho
  have hwv : w = v := h.graph.vertex_inj hw hv (by
    rw [← hid, how]
    rfl)
  exact ⟨o, ho, hid, hwv ▸ how⟩

/-- An edge is an input of the operator of its target. -/
theorem Whole.exists_target (h : t.Whole) {e : JobEdge}
    (he : e ∈ t.graph.edges) :
    ∃ o ∈ t.operators, o.id = e.target ∧ e ∈ o.inputs := by
  obtain ⟨v, hv, hev⟩ := JobGraph.mem_edges.mp he
  obtain ⟨o, ho, hid, hov⟩ := h.exists_operator hv
  exact ⟨o, ho, hid.trans (h.graph.target v hv e hev).symm,
    hov.symm ▸ hev⟩

/-- The connected edges are those of the graph. -/
theorem Whole.edges_perm (h : t.Whole) :
    (t.operators.flatMap (·.inputs)).Perm t.graph.edges := by
  set inputsOf : VertexId → List JobEdge := fun id =>
    t.graph.edges.filter (·.target = id) with hinputsOf
  have hvertices : t.graph.edges =
      (t.graph.vertices.map (·.id)).flatMap inputsOf := by
    rw [List.flatMap_map]
    exact List.flatMap_congr fun v hv => (h.graph.filter_target hv).symm
  have hoperators : t.operators.flatMap (·.inputs) =
      (t.operators.map (·.id)).flatMap inputsOf := by
    rw [List.flatMap_map]
    apply List.flatMap_congr
    intro o ho
    obtain ⟨v, hv, hid, hinputs⟩ := h.staffed.inputs_eq ho
    rw [← hinputs, ← hid, ← h.graph.filter_target hv]
  rw [hoperators, hvertices]
  exact h.ids.flatMap_right _

theorem Whole.congr (h : t.Whole) {t' : Topology} (hl : SameLinks t t')
    (hs : SameStaff t t') : t'.Whole where
  toSound := h.toSound.congr hl hs
  ids := by
    rw [hs.operators, hs.graph]
    exact h.ids

end Whole

/-- Nothing is wrong before the first vertex. -/
theorem sound_start {g : JobGraph} (hg : g.WellFormed)
    (hpos : ∀ v ∈ g.vertices, 0 < v.parallelism) :
    Sound { graph := g } where
  graph := hg
  parallelism := hpos
  wired := by
    refine ⟨⟨?_, ?_⟩, ⟨?_, ?_⟩, ⟨rfl, ?_, ?_, ?_, ?_, ?_, ?_⟩,
      ⟨?_, ?_, ?_, ?_, ?_, ?_⟩⟩ <;>
      simp [Indexes, taskIdAt, outputAt, partitionsIn, consumersOf,
        tasksReading, consumedBy, exchangeAt]
  staffed := by
    refine ⟨?_, ?_, ?_, ?_, ?_⟩ <;> simp [Indexes]
  owned := by simp [taskIdAt]
  laid := by simp

/-- A topology is built by expanding the vertices in topological order and
finding regions, which have to keep co-located subtasks together. -/
theorem ofJobGraph_eq_ok_iff {g : JobGraph} {t : Topology} :
    ofJobGraph g = .ok t ↔ ∃ order t0, g.sorted = .ok order ∧
      (order.map (·.id)).foldlM addOperator { graph := g } = .ok t0 ∧
      t0.computeRegions.checkCoLocation = .ok () ∧ t = t0.computeRegions := by
  unfold ofJobGraph
  simp only [bind, bind_eq_ok_iff, pure, Except.pure, Except.ok.injEq]
  constructor
  · rintro ⟨order, hsorted, t0, hfold, _, hcheck, rfl⟩
    exact ⟨order, t0, hsorted, hfold, hcheck, rfl⟩
  · rintro ⟨order, t0, hsorted, hfold, hcheck, rfl⟩
    exact ⟨order, hsorted, t0, hfold, (), hcheck, rfl⟩

/-- What holds once the first vertices of a graph are expanded. -/
structure Expanding (g : JobGraph) (pre : List VertexId) (t : Topology) :
    Prop where
  sound : t.Sound
  graph : t.graph = g
  ids : t.operators.map (·.id) = pre

section Expand

variable {g : JobGraph} (hg : g.WellFormed) {order : List JobVertex}
  (hsorted : g.sorted = .ok order)

include hg hsorted

theorem expanding_start : Expanding g [] { graph := g } :=
  ⟨sound_start hg (JobGraph.parallelism_pos hsorted), rfl, rfl⟩

theorem nodup_order : (order.map (·.id)).Nodup :=
  ((JobGraph.sorted_perm hsorted).map (·.id)).nodup_iff.mpr hg.ids_nodup

/-- The next vertex has no operator yet. -/
theorem Expanding.fresh {pre post : List VertexId} {id : VertexId}
    (horder : order.map (·.id) = pre ++ id :: post) {t : Topology}
    (h : Expanding g pre t) : ∀ o ∈ t.operators, o.id ≠ id := by
  have hnodup := nodup_order hg hsorted
  rw [horder, List.nodup_append] at hnodup
  intro o ho
  exact hnodup.2.2 o.id (h.ids ▸ List.mem_map_of_mem ho) id
    List.mem_cons_self

theorem Expanding.snoc {pre post : List VertexId} {id : VertexId}
    (horder : order.map (·.id) = pre ++ id :: post) {t t' : Topology}
    (h : Expanding g pre t) (hstep : addOperator t id = .ok t') :
    Expanding g (pre ++ [id]) t' := by
  obtain ⟨hs', hgraph', o, hid, hops⟩ :=
    h.sound.addOperator (h.fresh hg hsorted horder) hstep
  refine ⟨hs', hgraph'.trans h.graph, ?_⟩
  rw [hops, List.map_append, h.ids, List.map_singleton, hid]

omit hg in
theorem Expanding.whole {t : Topology}
    (h : Expanding g (order.map (·.id)) t) : t.Whole := by
  refine ⟨h.sound, ?_⟩
  rw [h.ids, h.graph]
  exact (JobGraph.sorted_perm hsorted).map (·.id)

/-- The next vertex can be expanded: its producers are sorted before it. -/
theorem Expanding.exists_addOperator {pre post : List VertexId}
    {id : VertexId} (horder : order.map (·.id) = pre ++ id :: post)
    {t : Topology} (h : Expanding g pre t) :
    ∃ t', addOperator t id = .ok t' := by
  have hget : (order.map (·.id))[pre.length]? = some id := by
    simp [horder]
  obtain ⟨v, hv, rfl⟩ := Option.map_eq_some_iff.mp
    (List.getElem?_map ▸ hget)
  have hmem := (JobGraph.sorted_perm hsorted).mem_iff.mp
    (List.mem_of_getElem? hv)
  refine h.sound.exists_addOperator (h.graph ▸ hmem)
    (h.fresh hg hsorted horder) ?_
  intro e he
  obtain ⟨p, hp, hproducer⟩ := hg.producer_of_sorted hsorted hv he
  rw [← List.getElem?_map, horder, List.getElem?_append_left hp,
    ← h.ids] at hproducer
  obtain ⟨o, ho, hid⟩ := List.mem_map.mp (List.mem_of_getElem? hproducer)
  exact ⟨o, ho, hid⟩

/-- All vertices of a graph that can be sorted can be expanded. -/
theorem exists_expanded : ∃ t0,
    (order.map (·.id)).foldlM addOperator { graph := g } = .ok t0 :=
  (exists_foldlM_ok (P := Expanding g) (fun _ _ _ horder _ h =>
    (h.exists_addOperator hg hsorted horder).imp fun _ hstep =>
      ⟨hstep, h.snoc hg hsorted horder hstep⟩)
    (expanding_start hg hsorted)).imp fun _ hloop => hloop.1

theorem whole_of_expanded {t0 : Topology}
    (hfold : (order.map (·.id)).foldlM addOperator { graph := g } = .ok t0) :
    t0.Whole ∧ t0.graph = g := by
  have h := foldlM_ok_induction (P := Expanding g)
    (fun _ _ _ horder _ _ h hstep => h.snoc hg hsorted horder hstep)
    (expanding_start hg hsorted) hfold
  exact ⟨h.whole hsorted, h.graph⟩

end Expand

theorem exists_of_ofJobGraph {g : JobGraph} (hg : g.WellFormed)
    {t : Topology} (hok : ofJobGraph g = .ok t) :
    ∃ t0 : Topology, t0.Whole ∧ t0.graph = g ∧ t = t0.computeRegions := by
  obtain ⟨order, t0, hsorted, hfold, -, rfl⟩ := ofJobGraph_eq_ok_iff.mp hok
  obtain ⟨hwhole, hgraph⟩ := whole_of_expanded hg hsorted hfold
  exact ⟨t0, hwhole, hgraph, rfl⟩

/-- Regions are no part of the links. -/
theorem sameLinks_setRegions (t : Topology) (regions : Array PipelinedRegion)
    (regionOf : Array RegionIndex) :
    SameLinks t { t with regions, regionOf } :=
  ⟨rfl, rfl, rfl, rfl, rfl, rfl, rfl, rfl, rfl, rfl⟩

theorem Whole.setRegions {t : Topology} (h : t.Whole)
    (regions : Array PipelinedRegion) (regionOf : Array RegionIndex) :
    Whole { t with regions, regionOf } :=
  h.congr (sameLinks_setRegions t regions regionOf)
    ⟨rfl, rfl, rfl, fun _ => rfl⟩

@[simp] theorem graph_computeRegions {t : Topology} :
    t.computeRegions.graph = t.graph := by
  simp only [Topology.computeRegions]

@[simp] theorem operators_computeRegions {t : Topology} :
    t.computeRegions.operators = t.operators := by
  simp only [Topology.computeRegions]

@[simp] theorem tasks_computeRegions {t : Topology} :
    t.computeRegions.tasks = t.tasks := by
  simp only [Topology.computeRegions]

@[simp] theorem taskIndex_computeRegions {t : Topology} :
    t.computeRegions.taskIndex = t.taskIndex := by
  simp only [Topology.computeRegions]

theorem sameLinks_computeRegions {t : Topology} :
    SameLinks t t.computeRegions := sameLinks_setRegions t _ _

theorem Whole.computeRegions {t : Topology} (h : t.Whole) :
    t.computeRegions.Whole := h.setRegions _ _

/-! ## New tasks -/

/-- What a task has from the start and keeps when it gets partitions and
groups. -/
structure Lasting (P : Task → Prop) : Prop where
  start : ∀ id, P { id }
  produce : ∀ task produced, P task → P { task with produced }
  consume : ∀ task consumed, P task → P { task with consumed }

namespace Lasting

variable {P : Task → Prop} (hP : Lasting P) {t t' : Topology}

include hP

theorem addSubtask (h : ∀ task ∈ t.tasks, P task) (vertex : VertexId)
    (outs : List JobEdge) (k : Nat) :
    ∀ task ∈ (addSubtask vertex outs t k).tasks, P task := by
  unfold Topology.addSubtask
  apply List.foldlRecOn (motive := fun s : Topology => ∀ task ∈ s.tasks, P task)
  · exact forall_mem_push h (hP.start _)
  · intro t' h e _
    exact forall_mem_modify (f := fun task =>
      { task with produced := task.produced ++ [t'.partitions.size] }) h
      fun task => hP.produce task _

theorem addGroups (h : ∀ task ∈ t.tasks, P task) (e : JobEdge)
    (ws : List Wire) : ∀ task ∈ (t.addGroups e ws).tasks, P task := by
  have hfold : ∀ task ∈ (ws.foldl (addGroup e) t).tasks, P task := by
    apply List.foldlRecOn (motive := fun s : Topology =>
      ∀ task ∈ s.tasks, P task) _ _ h
    intro t' h w _
    exact forall_mem_foldl_modify (f := fun task =>
      { task with consumed := task.consumed ++ [t'.groups.size] }) h
      fun task => hP.consume task _
  exact hfold

theorem connectInput (h : ∀ task ∈ t.tasks, P task)
    {consumers : List TaskIndex} {e : JobEdge}
    (hok : t.connectInput consumers e = .ok t') :
    ∀ task ∈ t'.tasks, P task := by
  obtain ⟨o, -, hrest⟩ := bind_eq_ok_iff.mp hok
  dsimp only at hrest
  split at hrest
  · cases hrest
  · cases hrest
    exact hP.addGroups h e _

theorem addOperator (h : ∀ task ∈ t.tasks, P task) {id : VertexId}
    (hok : t.addOperator id = .ok t') : ∀ task ∈ t'.tasks, P task := by
  obtain ⟨v, -, hrest⟩ := bind_eq_ok_iff.mp hok
  obtain ⟨t2, hinputs, hret⟩ := bind_eq_ok_iff.mp hrest
  have hsubtasks : ∀ task ∈ ((List.range v.parallelism).foldl
      (Topology.addSubtask v.id (t.graph.outputsOf id)) t).tasks, P task := by
    apply List.foldlRecOn (motive := fun s : Topology =>
      ∀ task ∈ s.tasks, P task) _ _ h
    intro t h k _
    exact hP.addSubtask h v.id _ k
  have h2 : ∀ task ∈ t2.tasks, P task := foldlM_ok_induction
    (P := fun _ (s : Topology) => ∀ task ∈ s.tasks, P task)
    (fun _ _ _ _ s s' hs hstep => hP.connectInput hs hstep) hsubtasks hinputs
  cases hret
  exact h2

/-- Every task of a new topology has what tasks have from the start. -/
theorem of_ofJobGraph {g : JobGraph} (hok : ofJobGraph g = .ok t) :
    ∀ task ∈ t.tasks, P task := by
  obtain ⟨order, t0, -, hfold, -, rfl⟩ := ofJobGraph_eq_ok_iff.mp hok
  rw [tasks_computeRegions]
  exact foldlM_ok_induction
    (P := fun _ (s : Topology) => ∀ task ∈ s.tasks, P task)
    (fun _ _ _ _ s s' hs hstep => hP.addOperator hs hstep)
    (fun task htask => by simp at htask) hfold

end Lasting

/-- No task has been attempted. -/
def Unattempted (t : Topology) : Prop := ∀ task ∈ t.tasks, task.attempt = none

theorem unattempted_of_ofJobGraph {g : JobGraph} {t : Topology}
    (hok : ofJobGraph g = .ok t) : t.Unattempted :=
  Lasting.of_ofJobGraph (P := (·.attempt = none))
    ⟨fun _ => rfl, fun _ _ h => h, fun _ _ h => h⟩ hok

end Topology

end ControlPlane
