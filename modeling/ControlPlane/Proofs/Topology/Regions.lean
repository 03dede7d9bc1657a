import Mathlib
import ControlPlane.Proofs.Topology.Arcs

/-!
# Regions are classes of tasks

Operators are partitioned first, and the tasks of each class afterwards. No
cycle of tasks is lost in between: the tasks of a cycle have vertices that
lead to each other, so they are in one class. A class with a fully wired
edge inside stays whole.
-/

namespace ControlPlane

/-- The vertices that lead to a given one and back include both ends of a
fully wired edge. -/
def JobGraph.InShuffle (g : JobGraph) (a : VertexId) : Prop :=
  ∃ e ∈ g.edges, e.pattern = .allToAll ∧
    Mutual g.VertexArc a e.producer ∧ Mutual g.VertexArc a e.target

theorem JobGraph.InShuffle.mutual {g : JobGraph} {a b : VertexId}
    (h : g.InShuffle a) (hab : Mutual g.VertexArc a b) : g.InShuffle b := by
  obtain ⟨e, he, hpattern, hproducer, htarget⟩ := h
  exact ⟨e, he, hpattern, hab.symm.trans hproducer, hab.symm.trans htarget⟩

namespace Topology

open Region

/-- Two tasks that belong into one region. -/
def Together (t : Topology) (i j : TaskIndex) : Prop :=
  Mutual t.TaskArc i j ∨ ∃ id id', t.taskIdAt i = some id ∧
    t.taskIdAt j = some id' ∧ Mutual t.graph.VertexArc id.vertex id'.vertex ∧
    t.graph.InShuffle id.vertex

variable {t : Topology}

theorem Together.symm {i j : Nat} (h : t.Together i j) : t.Together j i := by
  rcases h with h | ⟨id, id', hi, hj, hmutual, hshuffle⟩
  · exact .inl h.symm
  · exact .inr ⟨id', id, hj, hi, hmutual.symm, hshuffle.mutual hmutual⟩

/-- Tasks that belong together have vertices that do. -/
theorem Whole.mutual_of_together (h : t.Whole) {i j : Nat} {id id' : TaskId}
    (hi : t.taskIdAt i = some id) (hj : t.taskIdAt j = some id')
    (ht : t.Together i j) : Mutual t.graph.VertexArc id.vertex id'.vertex := by
  rcases ht with hm | ⟨a, b, ha, hb, hmutual, -⟩
  · exact h.mutual_vertex hm hi hj
  · rw [hi, Option.some.injEq] at ha
    rw [hj, Option.some.injEq] at hb
    rwa [ha, hb]

theorem Whole.lt_of_reaches (h : t.Whole) {i j : Nat} (hi : i < t.tasks.size)
    (hr : Relation.ReflTransGen t.TaskArc i j) : j < t.tasks.size := by
  cases hr with
  | refl => exact hi
  | tail _ harc => exact (h.lt_of_taskArc harc).2

/-! ## The tasks of a class of operators -/

/-- The tasks of the operators at some positions. -/
def tasksAt (t : Topology) (operators : List Nat) : List TaskIndex :=
  operators.flatMap fun pos => (t.operators[pos]?.map (·.tasks)).getD []

theorem Whole.mem_tasksAt (h : t.Whole) {c : List Nat} {i : Nat} :
    i ∈ t.tasksAt c ↔ ∃ pos ∈ c, ∃ id, t.taskIdAt i = some id ∧
      t.vertexAt pos = some id.vertex := by
  simp only [tasksAt, List.mem_flatMap]
  constructor
  · rintro ⟨pos, hpos, hi⟩
    cases ho : t.operators[pos]? with
    | none => simp [ho] at hi
    | some o =>
      rw [ho] at hi
      have hmem := List.mem_iff_getElem?.mpr ⟨pos, ho⟩
      obtain ⟨id, hid, hv⟩ := (h.staffed.mem_tasks hmem).mp hi
      exact ⟨pos, hpos, id, hid, by simp [vertexAt, ho, hv]⟩
  · rintro ⟨pos, hpos, id, hid, hv⟩
    obtain ⟨o, ho, hoid⟩ := Option.map_eq_some_iff.mp hv
    have hmem := List.mem_iff_getElem?.mpr ⟨pos, ho⟩
    refine ⟨pos, hpos, ?_⟩
    rw [ho]
    exact (h.staffed.mem_tasks hmem).mpr ⟨id, hid, hoid.symm⟩

/-- The position of the operator of a task. -/
theorem Whole.exists_position (h : t.Whole) {i : Nat} {id : TaskId}
    (hi : t.taskIdAt i = some id) :
    ∃ pos < t.operators.length, t.vertexAt pos = some id.vertex := by
  obtain ⟨o, ho, hid⟩ := h.owned i id hi
  obtain ⟨pos, hpos⟩ := List.mem_iff_getElem?.mp ho
  exact ⟨pos, (List.getElem?_eq_some_iff.mp hpos).1,
    by simp [vertexAt, hpos, hid]⟩

theorem Whole.nodup_tasksAt (h : t.Whole) {c : List Nat} (hc : c.Nodup) :
    (t.tasksAt c).Nodup := by
  rw [tasksAt, List.nodup_flatMap]
  constructor
  · intro pos _
    cases ho : t.operators[pos]? with
    | none => simp
    | some o =>
      exact h.staffed.nodup_tasks (List.mem_iff_getElem?.mpr ⟨pos, ho⟩)
  · refine hc.imp ?_
    intro p q hne i hi hi'
    obtain ⟨p', hp', id, hid, hv⟩ :=
      h.mem_tasksAt.mp (List.mem_flatMap.mpr ⟨p, List.mem_singleton_self p, hi⟩)
    obtain ⟨q', hq', id', hid', hv'⟩ :=
      h.mem_tasksAt.mp (List.mem_flatMap.mpr ⟨q, List.mem_singleton_self q, hi'⟩)
    rw [hid, Option.some.injEq] at hid'
    rw [List.mem_singleton] at hp' hq'
    subst hid' hp' hq'
    exact hne (h.staffed.operatorIndex.inj hv hv')

theorem Whole.tasksAt_ne_nil (h : t.Whole) {c : List Nat} (hc : c ≠ [])
    (hlt : ∀ pos ∈ c, pos < t.operators.length) : t.tasksAt c ≠ [] := by
  obtain ⟨pos, hpos⟩ := List.exists_mem_of_ne_nil c hc
  obtain ⟨o, ho⟩ : ∃ o, t.operators[pos]? = some o :=
    ⟨_, List.getElem?_eq_getElem (hlt pos hpos)⟩
  have hmem := List.mem_iff_getElem?.mpr ⟨pos, ho⟩
  obtain ⟨i, hi⟩ := List.exists_mem_of_ne_nil _ (h.tasks_ne_nil hmem)
  exact List.ne_nil_of_mem (List.mem_flatMap.mpr ⟨pos, hpos, by simpa [ho]⟩)

/-! ## Splitting a class -/

/-- The operators of a class, which lead to each other and to no others. -/
structure OperatorClass (t : Topology) (c : List Nat) : Prop where
  nonempty : c ≠ []
  nodup : c.Nodup
  lt : ∀ pos ∈ c, pos < t.operators.length
  mem_iff : ∀ pos ∈ c, ∀ a, t.vertexAt pos = some a → ∀ q b,
    t.vertexAt q = some b → (q ∈ c ↔ Mutual t.graph.VertexArc a b)

theorem Whole.operatorClass (h : t.Whole) {c : List Nat}
    (hc : c ∈ Region.partition t.operators.length t.operatorDependencies) :
    t.OperatorClass c := by
  have hclasses := classes_partition h.inRange_operatorDependencies
  refine ⟨hclasses.nonempty c hc, hclasses.nodup c hc, ?_, ?_⟩
  · intro pos hpos
    exact (hclasses.covers pos).mp ⟨c, hc, hpos⟩
  · intro pos hpos a ha q b hb
    rw [hclasses.related c hc pos hpos q, h.leads_operators ha hb,
      h.leads_operators hb ha]
    rfl

section Class

variable {c : List Nat} (h : t.Whole) (hc : t.OperatorClass c)

include h hc

/-- A class has the tasks of all vertices that lead to each other. -/
theorem Whole.mem_tasksAt_iff {i j : Nat} {id id' : TaskId}
    (hi : i ∈ t.tasksAt c) (hid : t.taskIdAt i = some id)
    (hid' : t.taskIdAt j = some id') :
    j ∈ t.tasksAt c ↔ Mutual t.graph.VertexArc id.vertex id'.vertex := by
  obtain ⟨pos, hpos, a, ha, hv⟩ := h.mem_tasksAt.mp hi
  rw [hid, Option.some.injEq] at ha
  subst ha
  constructor
  · intro hj
    obtain ⟨q, hq, b, hb, hvq⟩ := h.mem_tasksAt.mp hj
    rw [hid', Option.some.injEq] at hb
    subst hb
    exact (hc.mem_iff pos hpos _ hv q _ hvq).mp hq
  · intro hm
    obtain ⟨q, -, hvq⟩ := h.exists_position hid'
    exact h.mem_tasksAt.mpr
      ⟨q, (hc.mem_iff pos hpos _ hv q _ hvq).mpr hm, id', hid', hvq⟩

/-- The check for a fully wired edge inside a class. -/
theorem Whole.hasInnerShuffle_iff {i : Nat} {id : TaskId}
    (hi : i ∈ t.tasksAt c) (hid : t.taskIdAt i = some id) :
    t.hasInnerShuffle c = true ↔ t.graph.InShuffle id.vertex := by
  obtain ⟨pos, hpos, a, ha, hv⟩ := h.mem_tasksAt.mp hi
  rw [hid, Option.some.injEq] at ha
  subst ha
  -- A class is the vertices that lead to the one of the task and back.
  have hmem := fun {q b} => hc.mem_iff pos hpos _ hv q b
  simp only [hasInnerShuffle, List.any_eq_true, Bool.and_eq_true,
    decide_eq_true_eq]
  constructor
  · rintro ⟨q, hq, e, he, hpattern, hproducer⟩
    cases ho : t.operators[q]? with
    | none => simp [ho] at he
    | some o =>
      rw [ho, Option.map_some, Option.getD_some] at he
      obtain ⟨hedge, htarget⟩ := h.edge_of_input ho he
      split at hproducer
      · rename_i p hp
        have hvp := (h.staffed.operatorIndex e.producer p).mp hp
        exact ⟨e, hedge, hpattern, (hmem hvp).mp (by simpa using hproducer),
          (hmem htarget).mp hq⟩
      · cases hproducer
  · rintro ⟨e, he, hpattern, hproducer, htarget⟩
    obtain ⟨⟨p, hp⟩, q, hq⟩ :=
      h.exists_vertexAt ⟨e, he, .inl ⟨rfl, rfl⟩⟩
    obtain ⟨o, ho, heo⟩ := h.input_of_edge he hq
    refine ⟨q, (hmem hq).mpr htarget, e, by simpa [ho] using heo, hpattern,
      ?_⟩
    rw [(h.staffed.operatorIndex e.producer p).mpr hp]
    simpa using (hmem hp).mpr hproducer

/-- Inside a class no cycle of tasks is lost. -/
theorem Whole.leads_of_mutual {x i j : Nat} (hx : (t.tasksAt c)[x]? = some i)
    (hm : Mutual t.TaskArc i j) :
    ∃ y, (t.tasksAt c)[y]? = some j ∧
      Leads (t.taskDependencies (t.tasksAt c)) x y := by
  have hnodup := h.nodup_tasksAt hc.nodup
  have hi := List.mem_iff_getElem?.mpr ⟨x, hx⟩
  obtain ⟨-, -, id, hid, -⟩ := h.mem_tasksAt.mp hi
  obtain ⟨hij, hji⟩ := hm
  -- Every task on the way to `j` leads back as well.
  induction hij with
  | refl => exact ⟨x, hx, .refl⟩
  | @tail k j hik harc ih =>
    obtain ⟨y, hy, hxy⟩ := ih (.head harc hji)
    obtain ⟨id', hid'⟩ := exists_taskIdAt (h.lt_of_taskArc harc).2
    have hmutual := h.mutual_vertex ⟨hik.tail harc, hji⟩ hid hid'
    have hj := (h.mem_tasksAt_iff hc hi hid hid').mpr hmutual
    obtain ⟨z, hz⟩ := List.mem_iff_getElem?.mp hj
    exact ⟨z, hz, hxy.tail ((h.arc_tasks hnodup hy hz).mpr harc)⟩

omit hc in
theorem Whole.reaches_of_leads {tasks : List Nat} (hnodup : tasks.Nodup)
    {x y i j : Nat} (hx : tasks[x]? = some i) (hy : tasks[y]? = some j)
    (hl : Leads (t.taskDependencies tasks) x y) :
    Relation.ReflTransGen t.TaskArc i j := by
  induction hl generalizing j with
  | refl =>
    rw [hx, Option.some.injEq] at hy
    exact hy ▸ .refl
  | tail hxz harc ih =>
    have hz := Leads.lt (inRange_taskDependencies hnodup)
      (List.getElem?_eq_some_iff.mp hx).1 hxz
    have hget := List.getElem?_eq_getElem hz
    exact (ih hget).tail ((h.arc_tasks hnodup hget hy).mp harc)

end Class

/-- What splitting a class gives. -/
structure SplitClass (t : Topology) (c : List Nat) (parts : List (List Nat)) :
    Prop where
  covers : ∀ i, (∃ l ∈ parts, i ∈ l) ↔ i ∈ t.tasksAt c
  nonempty : ∀ l ∈ parts, l ≠ []
  nodup : ∀ l ∈ parts, l.Nodup
  related : ∀ l ∈ parts, ∀ i ∈ l, ∀ j, j ∈ l ↔ t.Together i j
  disjoint : parts.Pairwise List.Disjoint

section Split

variable {c : List Nat} (h : t.Whole) (hc : t.OperatorClass c)

include h hc

/-- A task that belongs together with one of the class is in the class. -/
theorem Whole.mem_tasksAt_of_together {i j : Nat} (hi : i ∈ t.tasksAt c)
    (ht : t.Together i j) : j ∈ t.tasksAt c := by
  obtain ⟨-, -, id, hid, -⟩ := h.mem_tasksAt.mp hi
  have hj : j < t.tasks.size := by
    rcases ht with hm | ⟨-, id', -, hid', -⟩
    · exact h.lt_of_reaches (lt_of_taskIdAt hid) hm.1
    · exact lt_of_taskIdAt hid'
  obtain ⟨id', hid'⟩ := exists_taskIdAt hj
  exact (h.mem_tasksAt_iff hc hi hid hid').mpr
    (h.mutual_of_together hid hid' ht)

theorem Whole.splitClass_shuffle (hshuffle : t.hasInnerShuffle c = true) :
    t.SplitClass c [t.tasksAt c] where
  covers := by simp
  nonempty := by simpa using h.tasksAt_ne_nil hc.nonempty hc.lt
  nodup := by simpa using h.nodup_tasksAt hc.nodup
  related := by
    intro l hl i hi j
    rw [List.mem_singleton] at hl
    subst hl
    refine ⟨fun hj => ?_, h.mem_tasksAt_of_together hc hi⟩
    obtain ⟨-, -, id, hid, -⟩ := h.mem_tasksAt.mp hi
    obtain ⟨-, -, id', hid', -⟩ := h.mem_tasksAt.mp hj
    exact .inr ⟨id, id', hid, hid', (h.mem_tasksAt_iff hc hi hid hid').mp hj,
      (h.hasInnerShuffle_iff hc hi hid).mp hshuffle⟩
  disjoint := by simp

/-- A class without a fully wired edge is split along the arcs of its
tasks. -/
theorem Whole.splitClass_arcs (hshuffle : t.hasInnerShuffle c = false) :
    t.SplitClass c ((Region.partition (t.tasksAt c).length
      (t.taskDependencies (t.tasksAt c))).map
        fun part => part.filterMap ((t.tasksAt c)[·]?)) := by
  set tasks := t.tasksAt c
  have hnodup : tasks.Nodup := h.nodup_tasksAt hc.nodup
  have hparts := classes_partition (inRange_taskDependencies (t := t) hnodup)
  have hcover := hparts.cover.getElem? hnodup
  refine ⟨hcover.covers, hcover.nonempty, hcover.nodup, ?related,
    hcover.disjoint⟩
  case related =>
    intro l hl i hi j
    obtain ⟨part, hpart, rfl⟩ := List.mem_map.mp hl
    obtain ⟨x, hxp, hx⟩ := List.mem_filterMap.mp hi
    have hit := List.mem_iff_getElem?.mpr ⟨x, hx⟩
    have hlt := (List.getElem?_eq_some_iff.mp hx).1
    constructor
    · intro hj
      obtain ⟨y, hyp, hy⟩ := List.mem_filterMap.mp hj
      obtain ⟨hxy, hyx⟩ := (hparts.related part hpart x hxp y).mp hyp
      exact .inl ⟨h.reaches_of_leads hnodup hx hy hxy,
        h.reaches_of_leads hnodup hy hx hyx⟩
    · rintro (hm | ⟨id, id', hid, -, -, hinner⟩)
      · obtain ⟨y, hy, hxy⟩ := h.leads_of_mutual hc hx hm
        obtain ⟨x', hx', hyx⟩ := h.leads_of_mutual hc hy hm.symm
        rw [← (List.getElem?_inj hlt hnodup).mp (hx.trans hx'.symm)] at hyx
        exact List.mem_filterMap.mpr
          ⟨y, (hparts.related part hpart x hxp y).mpr ⟨hxy, hyx⟩, hy⟩
      · rw [(h.hasInnerShuffle_iff hc hit hid).mpr hinner] at hshuffle
        cases hshuffle

theorem Whole.splitClass : t.SplitClass c (t.splitClass c) := by
  unfold Topology.splitClass
  dsimp only
  split
  · rename_i hshuffle
    exact h.splitClass_shuffle hc hshuffle
  · rename_i hshuffle
    simp only [List.getElem?_toArray]
    exact h.splitClass_arcs hc (Bool.eq_false_iff.mpr hshuffle)

end Split

/-! ## All regions -/

/-- The regions are the classes of tasks that belong together. -/
theorem Whole.classes_regionMembers (h : t.Whole) :
    Classes t.tasks.size t.Together t.regionMembers := by
  have hclasses := classes_partition h.inRange_operatorDependencies
  unfold regionMembers
  dsimp only
  set classes := Region.partition t.operators.length t.operatorDependencies
    with hdef
  have hoperators : ∀ c ∈ classes, t.OperatorClass c := fun c hc =>
    h.operatorClass hc
  have hsplit : ∀ c ∈ classes, t.SplitClass c (t.splitClass c) :=
    fun c hc => h.splitClass (hoperators c hc)
  -- The classes of operators take up all tasks, and each of them is split into
  -- classes of its tasks.
  apply Classes.ascending
  exact
    { covers := by
        intro i
        simp only [List.mem_flatMap]
        constructor
        · rintro ⟨l, ⟨c, hc, hl⟩, hi⟩
          obtain ⟨-, -, id, hid, -⟩ :=
            h.mem_tasksAt.mp (((hsplit c hc).covers i).mp ⟨l, hl, hi⟩)
          exact lt_of_taskIdAt hid
        · intro hi
          obtain ⟨id, hid⟩ := exists_taskIdAt hi
          obtain ⟨pos, hlt, hpos⟩ := h.exists_position hid
          obtain ⟨c, hc, hposc⟩ := (hclasses.covers pos).mpr hlt
          obtain ⟨l, hl, hil⟩ := ((hsplit c hc).covers i).mpr
            (h.mem_tasksAt.mpr ⟨pos, hposc, id, hid, hpos⟩)
          exact ⟨l, ⟨c, hc, hl⟩, hil⟩
      nonempty := by
        intro l hl
        obtain ⟨c, hc, hl⟩ := List.mem_flatMap.mp hl
        exact (hsplit c hc).nonempty l hl
      nodup := by
        intro l hl
        obtain ⟨c, hc, hl⟩ := List.mem_flatMap.mp hl
        exact (hsplit c hc).nodup l hl
      related := by
        intro l hl i hi j
        obtain ⟨c, hc, hl⟩ := List.mem_flatMap.mp hl
        rw [(hsplit c hc).related l hl i hi j]
        exact ⟨fun ht => ⟨ht, ht.symm⟩, And.left⟩
      disjoint := by
        rw [List.pairwise_flatMap]
        refine ⟨fun c hc => (hsplit c hc).disjoint, ?_⟩
        refine hclasses.disjoint.imp_of_mem ?_
        intro c d hc hd hdisjoint l hl l' hl' i hi hi'
        -- A common task would put its operator into both classes.
        obtain ⟨p, hp, id, hid, hv⟩ :=
          h.mem_tasksAt.mp (((hsplit c hc).covers i).mp ⟨l, hl, hi⟩)
        obtain ⟨q, hq, id', hid', hv'⟩ :=
          h.mem_tasksAt.mp (((hsplit d hd).covers i).mp ⟨l', hl', hi'⟩)
        rw [hid, Option.some.injEq] at hid'
        subst hid'
        exact hdisjoint hp (h.staffed.operatorIndex.inj hv hv' ▸ hq) }

end Topology

end ControlPlane
