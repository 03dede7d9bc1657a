import Mathlib
import ControlPlane.Proofs.JobGraph.Order
import ControlPlane.Proofs.JobGraph.Reach

/-!
# Graphs that can be sorted

A vertex is taken after the producers of its inputs, so none on a cycle or
behind one is ever taken. Every other vertex is taken in the end: the first
one that is not would wait for a vertex that is.
-/

namespace ControlPlane

namespace JobGraph

/-- No edges lead from a vertex back to it. -/
def Acyclic (g : JobGraph) : Prop :=
  ∀ id, ¬ Relation.TransGen g.LeadsTo id id

/-- A vertex lies on a cycle, or edges lead to it from one. -/
def Trapped (g : JobGraph) (id : VertexId) : Prop :=
  ∃ c, Relation.TransGen g.LeadsTo c c ∧ Relation.ReflTransGen g.LeadsTo c id

variable {g : JobGraph}

theorem pendingInputs_eq_zero {taken : List Nat} {pos : Nat} :
    g.pendingInputs taken pos = 0 ↔ ∀ e ∈ g.inputsAt pos,
      ∃ p ∈ taken, g.positions[e.producer]? = some p := by
  simp [pendingInputs, isPending, List.countP_eq_zero]

/-- The edges to a vertex are its inputs. -/
theorem WellFormed.leadsTo_iff (hg : g.WellFormed) {pos : Nat}
    {a b : VertexId} (hb : g.idAt pos = some b) :
    g.LeadsTo a b ↔ ∃ e ∈ g.inputsAt pos, e.producer = a := by
  obtain ⟨v, hv, rfl⟩ := Option.map_eq_some_iff.mp hb
  have hinputs : g.inputsAt pos = v.inputs := by simp [inputsAt, hv]
  rw [hinputs, ← hg.filter_target (List.mem_of_getElem? hv)]
  simp only [LeadsTo, List.mem_filter, decide_eq_true_eq, and_assoc]
  exact exists_congr fun e => and_congr_right fun _ => and_comm

namespace Sorting

/-- Every vertex is taken after the producers of its inputs. -/
def Ordered (g : JobGraph) (s : Sorting) : Prop :=
  ∀ (q : Nat) pos, s.taken[q]? = some pos → ∀ e ∈ g.inputsAt pos,
    ∃ p < q, ∃ source, s.taken[p]? = some source ∧
      g.positions[e.producer]? = some source

theorem taken_release (s : Sorting) (pos : Nat) :
    (s.release pos).taken = s.taken := by
  unfold release
  dsimp only
  split <;> rfl

theorem taken_releaseAll (left : List Nat) (s : Sorting) :
    (left.foldl release s).taken = s.taken := by
  induction left generalizing s with
  | nil => rfl
  | cons pos left ih => rw [List.foldl_cons, ih, taken_release]

/-- A vertex in the queue waits for nothing. -/
theorem Sound.pendingInputs_of_mem {s : Sorting} (h : Sound g s [])
    {pos : Nat} (hpos : pos ∈ s.taken ++ s.queue) :
    g.pendingInputs s.taken pos = 0 := by
  have hlt := h.bound pos hpos
  have hready := (h.ready pos hlt).mp hpos
  rw [h.waiting pos hlt, List.count_nil, Nat.add_zero] at hready
  exact Option.some.inj hready

/-- The vertex taken next has all of its producers behind it. -/
theorem Ordered.take {s : Sorting} (ho : Ordered g s) {pos : Nat}
    (hpending : g.pendingInputs s.taken pos = 0) {queue : List Nat} :
    Ordered g { s with queue, taken := s.taken ++ [pos] } := by
  have hkeep : ∀ {p x : Nat}, s.taken[p]? = some x →
      (s.taken ++ [pos])[p]? = some x := fun hp => by
    rwa [List.getElem?_append_left (List.getElem?_eq_some_iff.mp hp).1]
  intro q next hq e he
  rcases Nat.lt_or_ge q s.taken.length with hlt | hge
  · rw [List.getElem?_append_left hlt] at hq
    obtain ⟨p, hp, source, hsource, hproducer⟩ := ho q next hq e he
    exact ⟨p, hp, source, hkeep hsource, hproducer⟩
  · rw [List.getElem?_append_right hge, List.getElem?_singleton] at hq
    split at hq
    · cases hq
      obtain ⟨source, hmem, hproducer⟩ := pendingInputs_eq_zero.mp hpending e he
      obtain ⟨p, hp⟩ := List.mem_iff_getElem?.mp hmem
      exact ⟨p, Nat.lt_of_lt_of_le (List.getElem?_eq_some_iff.mp hp).1 hge,
        source, hkeep hp, hproducer⟩
    · cases hq

theorem Ordered.run {s : Sorting} (h : Sound g s []) (ho : Ordered g s)
    (fuel : Nat) : Ordered g (Sorting.run g fuel s) := by
  refine (h.run_induction ?_ ho fuel).2
  intro s pos queue h hq ho
  have hmem : pos ∈ s.taken ++ s.queue := by simp [hq]
  have hpending := h.pendingInputs_of_mem hmem
  rw [Ordered, taken_releaseAll]
  exact ho.take hpending

theorem Sound.length_le {s : Sorting} {left : List Nat} (h : Sound g s left) :
    s.taken.length + s.queue.length ≤ g.vertices.length := by
  have hsub : s.taken ++ s.queue ⊆ List.range g.vertices.length :=
    fun pos hpos => List.mem_range.mpr (h.bound pos hpos)
  have hle := (List.subperm_of_subset h.nodup hsub).length_le
  rwa [List.length_append, List.length_range] at hle

/-- With a step for every vertex, the queue is empty in the end. -/
theorem Sound.queue_run {s : Sorting} (h : Sound g s []) {fuel : Nat}
    (hfuel : g.vertices.length ≤ s.taken.length + fuel) :
    (Sorting.run g fuel s).queue = [] := by
  induction fuel generalizing s with
  | zero =>
    have hle := h.length_le
    exact List.length_eq_zero_iff.mp (by
      show s.queue.length = 0
      omega)
  | succ fuel ih =>
    unfold Sorting.run
    split
    · assumption
    · rename_i pos queue hq
      refine ih ((h.take hq).releaseAll fun p hp => dependents_lt hp) ?_
      rw [taken_releaseAll]
      show _ ≤ (s.taken ++ [pos]).length + fuel
      rw [List.length_append, List.length_singleton]
      omega

end Sorting

theorem ordered_sorting (g : JobGraph) : Sorting.Ordered g g.sorting :=
  Sorting.Ordered.run Sorting.sound_start
    (by simp [Sorting.Ordered, Sorting.start]) g.vertices.length

theorem queue_sorting (g : JobGraph) : g.sorting.queue = [] :=
  Sorting.sound_start.queue_run (Nat.le_add_left _ _)

/-- A vertex is taken unless it waits for an input. -/
theorem mem_taken_iff_waiting {pos : Nat} (hpos : pos < g.vertices.length) :
    pos ∈ g.sorting.taken ↔ g.pendingInputs g.sorting.taken pos = 0 := by
  have hsound := sound_sorting g
  have hready := hsound.ready pos hpos
  rw [hsound.waiting pos hpos, queue_sorting, List.append_nil, List.count_nil,
    Nat.add_zero, Option.some.injEq] at hready
  exact hready

/-! ## Places in the order -/

/-- The vertex taken at a place. -/
def takenAt (g : JobGraph) (q : Nat) : Option VertexId :=
  g.sorting.taken[q]?.bind g.idAt

section Places

variable {a b : VertexId} {q : Nat}

theorem WellFormed.takenAt_of_leadsTo (hg : g.WellFormed)
    (hab : g.LeadsTo a b) (hq : g.takenAt q = some b) :
    ∃ p < q, g.takenAt p = some a := by
  obtain ⟨pos, hpos, hid⟩ := Option.bind_eq_some_iff.mp hq
  obtain ⟨e, he, rfl⟩ := (hg.leadsTo_iff hid).mp hab
  obtain ⟨p, hp, source, hsource, hproducer⟩ :=
    ordered_sorting g q pos hpos e he
  refine ⟨p, hp, ?_⟩
  rw [takenAt, hsource]
  exact (hg.positions e.producer source).mp hproducer

theorem WellFormed.takenAt_of_path (hg : g.WellFormed)
    (hab : Relation.TransGen g.LeadsTo a b) (hq : g.takenAt q = some b) :
    ∃ p < q, g.takenAt p = some a := by
  induction hab generalizing q with
  | single hab => exact hg.takenAt_of_leadsTo hab hq
  | tail _ hcb ih =>
    obtain ⟨p, hp, hpc⟩ := hg.takenAt_of_leadsTo hcb hq
    obtain ⟨r, hr, hra⟩ := ih hpc
    exact ⟨r, hr.trans hp, hra⟩

/-- What is on a cycle or behind one is not taken. -/
theorem WellFormed.not_trapped (hg : g.WellFormed) {id : VertexId}
    (hq : g.takenAt q = some id) : ¬ g.Trapped id := by
  rintro ⟨c, hcycle, hpath⟩
  have hc : ∃ p, g.takenAt p = some c := by
    rcases Relation.reflTransGen_iff_eq_or_transGen.mp hpath with rfl | hpath
    · exact ⟨q, hq⟩
    · obtain ⟨p, -, hp⟩ := hg.takenAt_of_path hpath hq
      exact ⟨p, hp⟩
  obtain ⟨p, hp⟩ := hc
  -- A vertex on a cycle stands at no place, as it would stand before it.
  induction p using Nat.strong_induction_on with
  | h p ih =>
    obtain ⟨r, hr, hrc⟩ := hg.takenAt_of_path hcycle hp
    exact ih r hr hrc

end Places

/-! ## What is taken -/

/-- Outside of cycles edges lead back only finitely often. -/
theorem wellFoundedOn_leadsTo (g : JobGraph) :
    {id | (∃ v ∈ g.vertices, v.id = id) ∧ ¬ g.Trapped id}.WellFoundedOn
      g.LeadsTo := by
  have hfinite : {id | (∃ v ∈ g.vertices, v.id = id) ∧
      ¬ g.Trapped id}.Finite := by
    refine (g.vertices.map (·.id)).finite_toSet.subset ?_
    rintro _ ⟨⟨v, hv, rfl⟩, -⟩
    exact List.mem_map_of_mem hv
  have horder : IsStrictOrder VertexId fun a b =>
      Relation.TransGen g.LeadsTo a b ∧ ¬ g.Trapped b :=
    { irrefl := fun a ⟨hcycle, hfree⟩ => hfree ⟨a, hcycle, .refl⟩
      trans := fun _ _ _ hab hbc => ⟨hab.1.trans hbc.1, hbc.2⟩ }
  exact (hfinite.wellFoundedOn (r := fun a b =>
    Relation.TransGen g.LeadsTo a b ∧ ¬ g.Trapped b)).mono'
      fun _ _ _ hb hab => ⟨.single hab, hb.2⟩

/-- Exactly the vertices are taken that are on no cycle and behind none. -/
theorem WellFormed.mem_taken_iff (hg : g.WellFormed) {pos : Nat}
    {id : VertexId} (hpos : g.idAt pos = some id) :
    pos ∈ g.sorting.taken ↔ ¬ g.Trapped id := by
  have hvertex : ∀ {pos id}, g.idAt pos = some id →
      ∃ v ∈ g.vertices, v.id = id := fun hpos => by
    obtain ⟨v, hv, hvid⟩ := Option.map_eq_some_iff.mp hpos
    exact ⟨v, List.mem_of_getElem? hv, hvid⟩
  constructor
  · intro htaken
    obtain ⟨q, hq⟩ := List.mem_iff_getElem?.mp htaken
    exact hg.not_trapped (q := q) (by rw [takenAt, hq]; exact hpos)
  · intro hfree
    refine (wellFoundedOn_leadsTo g).induction ⟨hvertex hpos, hfree⟩
      (P := fun id => ∀ pos, g.idAt pos = some id → pos ∈ g.sorting.taken)
      ?_ pos hpos
    intro b ⟨_, hbfree⟩ ih pos hpos
    obtain ⟨v, hv, -⟩ := Option.map_eq_some_iff.mp hpos
    rw [mem_taken_iff_waiting (List.getElem?_eq_some_iff.mp hv).1,
      pendingInputs_eq_zero]
    intro e he
    have hleads := (hg.leadsTo_iff hpos).mpr ⟨e, he, rfl⟩
    have hproducer : ¬ g.Trapped e.producer := fun ⟨c, hcycle, hpath⟩ =>
      hbfree ⟨c, hcycle, hpath.tail hleads⟩
    obtain ⟨-, w, hw, hwid⟩ := hg.producer v (List.mem_of_getElem? hv) e
      (by simpa [inputsAt, hv] using he)
    obtain ⟨p, hp⟩ := List.mem_iff_getElem?.mp hw
    have hat : g.idAt p = some e.producer := by simp [idAt, hp, hwid]
    exact ⟨p, ih e.producer ⟨⟨w, hw, hwid⟩, hproducer⟩ hleads p hat,
      (hg.positions _ _).mpr hat⟩

/-- Nothing is left over exactly if there is no cycle. -/
theorem WellFormed.length_taken_iff (hg : g.WellFormed) :
    g.sorting.taken.length = g.vertices.length ↔ g.Acyclic := by
  constructor
  · intro hlength id hcycle
    obtain ⟨-, -, e, he, -, htarget⟩ := Relation.TransGen.tail'_iff.mp hcycle
    obtain ⟨v, hv, hev⟩ := mem_edges.mp he
    obtain ⟨pos, hpos⟩ := List.mem_iff_getElem?.mp hv
    have hid : g.idAt pos = some id := by
      rw [idAt, hpos, Option.map_some, ← hg.target v hv e hev, htarget]
    have htaken : pos ∈ g.sorting.taken :=
      (taken_perm hlength).mem_iff.mpr (List.mem_range.mpr
        (List.getElem?_eq_some_iff.mp hpos).1)
    exact (hg.mem_taken_iff hid).mp htaken ⟨id, hcycle, .refl⟩
  · intro hacyclic
    apply Nat.le_antisymm
    · exact Nat.le_trans (Nat.le_add_right _ _) (sound_sorting g).length_le
    · have hsub : List.range g.vertices.length ⊆ g.sorting.taken := by
        intro pos hpos
        have hget := List.getElem?_eq_getElem (List.mem_range.mp hpos)
        rw [hg.mem_taken_iff (by rw [idAt, hget, Option.map_some])]
        rintro ⟨c, hcycle, -⟩
        exact hacyclic c hcycle
      have hle := (List.subperm_of_subset List.nodup_range hsub).length_le
      rwa [List.length_range] at hle

/-- The vertices that still wait are those on a cycle or behind one. -/
theorem WellFormed.stuck_iff (hg : g.WellFormed) {pos n : Nat} {v : JobVertex}
    (hv : g.vertices[pos]? = some v) (hn : g.sorting.waiting[pos]? = some n) :
    0 < n ↔ g.Trapped v.id := by
  have hlt := (List.getElem?_eq_some_iff.mp hv).1
  have hid : g.idAt pos = some v.id := by rw [idAt, hv, Option.map_some]
  have hpending := (sound_sorting g).waiting pos hlt
  rw [hn, List.count_nil, Nat.add_zero, Option.some.injEq] at hpending
  rw [hpending, Nat.pos_iff_ne_zero, ne_eq, ← mem_taken_iff_waiting hlt,
    hg.mem_taken_iff hid, not_not]

/-! ## Order and cycles -/

/-- Vertices are sorted behind the producers of their inputs. -/
theorem WellFormed.producer_of_sorted (hg : g.WellFormed)
    {order : List JobVertex} (h : g.sorted = .ok order) {q : Nat}
    {v : JobVertex} (hq : order[q]? = some v) {e : JobEdge}
    (he : e ∈ v.inputs) :
    ∃ p < q, order[p]?.map (·.id) = some e.producer := by
  obtain ⟨-, -, rfl⟩ := sorted_eq_ok_iff.mp h
  have hall : ∀ pos ∈ g.sorting.taken, ∃ v, g.vertices[pos]? = some v :=
    fun pos hpos => ⟨_, List.getElem?_eq_getElem
      ((sound_sorting g).bound pos (List.mem_append_left _ hpos))⟩
  rw [getElem?_filterMap hall] at hq
  obtain ⟨pos, hpos, hv⟩ := Option.bind_eq_some_iff.mp hq
  obtain ⟨p, hp, source, hsource, hproducer⟩ :=
    ordered_sorting g q pos hpos e (by simpa [inputsAt, hv] using he)
  refine ⟨p, hp, ?_⟩
  rw [getElem?_filterMap hall, hsource]
  exact (hg.positions e.producer source).mp hproducer

/-- The producers of a well-formed graph are indexed. -/
theorem WellFormed.validate_eq_ok (hg : g.WellFormed)
    (hpositive : ∀ v ∈ g.vertices, 0 < v.parallelism) :
    g.validate = .ok () := by
  rw [validate_eq_ok_iff]
  refine fun v hv => ⟨hpositive v hv, fun e he => ?_⟩
  obtain ⟨-, w, hw, hwid⟩ := hg.producer v hv e he
  obtain ⟨p, hp⟩ := List.mem_iff_getElem?.mp hw
  have hindex := (hg.positions e.producer p).mpr (by simp [idAt, hp, hwid])
  rw [Std.TreeMap.mem_iff_isSome_getElem?, hindex]
  rfl

/-- A graph can be sorted if every vertex has subtasks and there are no
cycles. -/
theorem WellFormed.exists_sorted_iff (hg : g.WellFormed) :
    (∃ order, g.sorted = .ok order) ↔
      (∀ v ∈ g.vertices, 0 < v.parallelism) ∧ g.Acyclic := by
  constructor
  · rintro ⟨order, h⟩
    exact ⟨parallelism_pos h,
      hg.length_taken_iff.mp (sorted_eq_ok_iff.mp h).2.1⟩
  · rintro ⟨hpositive, hacyclic⟩
    exact ⟨_, sorted_eq_ok_iff.mpr ⟨hg.validate_eq_ok hpositive,
      hg.length_taken_iff.mpr hacyclic, rfl⟩⟩

open scoped Classical in
/-- A cycle is reported with what is on it or behind it. -/
theorem WellFormed.sorted_eq_cycle (hg : g.WellFormed)
    (hpositive : ∀ v ∈ g.vertices, 0 < v.parallelism) (hcycle : ¬ g.Acyclic) :
    g.sorted = .error (.invalidGraph (.cycle
      ((g.vertices.filter fun v => g.Trapped v.id).map (·.name)))) := by
  have hlength : g.sorting.taken.length ≠ g.vertices.length := fun hlength =>
    hcycle (hg.length_taken_iff.mp hlength)
  have hcounters : g.vertices.length ≤ g.sorting.waiting.length := by
    by_contra hshort
    have hnone := (sound_sorting g).waiting g.sorting.waiting.length (by omega)
    simp at hnone
  have hstuck : ((g.vertices.zip g.sorting.waiting).filter
      fun x => 0 < x.2).map (·.1) =
        g.vertices.filter fun v => g.Trapped v.id := by
    refine map_fst_filter_zip (q := (0 < ·)) hcounters ?_
    intro v n hzip
    obtain ⟨pos, hpos⟩ := List.mem_iff_getElem?.mp hzip
    obtain ⟨hv, hn⟩ := List.getElem?_zip_eq_some.mp hpos
    exact decide_eq_decide.mpr (hg.stuck_iff hv hn)
  rw [sorted, hg.validate_eq_ok hpositive]
  simp only [bind, Except.bind, if_pos hlength]
  rw [← hstuck, List.map_map]
  rfl

/-- If every vertex has subtasks, only a cycle keeps a graph from being
sorted. -/
theorem WellFormed.sorted_cases (hg : g.WellFormed)
    (hpositive : ∀ v ∈ g.vertices, 0 < v.parallelism) :
    (g.Acyclic ∧ ∃ order, g.sorted = .ok order) ∨
      (¬ g.Acyclic ∧
        ∃ names, g.sorted = .error (.invalidGraph (.cycle names))) := by
  by_cases hacyclic : g.Acyclic
  · exact .inl ⟨hacyclic, hg.exists_sorted_iff.mpr ⟨hpositive, hacyclic⟩⟩
  · exact .inr ⟨hacyclic, _, hg.sorted_eq_cycle hpositive hacyclic⟩

end JobGraph

end ControlPlane
