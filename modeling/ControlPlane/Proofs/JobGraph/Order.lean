import Mathlib
import ControlPlane.JobGraph.Order
import ControlPlane.Proofs.Loops
import ControlPlane.Proofs.Sequence

/-!
# The sort takes every vertex once

A vertex waits for the inputs whose producers are not taken yet, so it
becomes ready exactly once, when the last of them is taken. The order a
graph is sorted into is therefore a permutation of its vertices.
-/

namespace ControlPlane

namespace JobGraph

variable {g : JobGraph}

/-- The inputs of the vertex at a position. -/
def inputsAt (g : JobGraph) (pos : Nat) : List JobEdge :=
  (g.vertices[pos]?.map (·.inputs)).getD []

/-- Whether the producer of an edge is at none of the given positions. -/
def isPending (g : JobGraph) (taken : List Nat) (e : JobEdge) : Bool :=
  ∀ q ∈ taken, g.positions[e.producer]? ≠ some q

/-- The number of inputs of a vertex whose producers are not taken. -/
def pendingInputs (g : JobGraph) (taken : List Nat) (pos : Nat) : Nat :=
  (g.inputsAt pos).countP (g.isPending taken)

/-- The inputs still waited for, when one more producer is taken. -/
theorem pendingInputs_snoc {taken : List Nat} {pos : Nat} (hpos : pos ∉ taken)
    (reader : Nat) :
    g.pendingInputs taken reader = g.pendingInputs (taken ++ [pos]) reader +
      (g.inputsAt reader).countP (g.positions[·.producer]? = some pos) := by
  unfold pendingInputs
  generalize g.inputsAt reader = inputs
  induction inputs with
  | nil => rfl
  | cons e inputs ih =>
    have hsplit : g.isPending (taken ++ [pos]) e =
        (g.isPending taken e && g.positions[e.producer]? ≠ some pos) := by
      simp only [isPending, List.mem_append, List.mem_singleton]
      grind
    simp only [List.countP_cons, ih, hsplit]
    by_cases he : g.positions[e.producer]? = some pos
    · have hpending : g.isPending taken e = true := by
        simp only [isPending, decide_eq_true_eq]
        intro q hq heq
        rw [he] at heq
        exact hpos (Option.some.inj heq ▸ hq)
      simp [he, hpending]
      omega
    · simp [he]
      omega

/-- A vertex is listed among the dependents once for each of its inputs from
there. -/
theorem count_dependents (pos reader : Nat) :
    (g.dependents pos).count reader =
      (g.inputsAt reader).countP (g.positions[·.producer]? = some pos) := by
  -- The induction is on the vertices, with the position of the first one.
  have hstep : ∀ (vs : List JobVertex) (k : Nat),
      ((vs.zipIdx k).flatMap fun p => p.1.inputs.filterMap fun e =>
        if g.positions[e.producer]? = some pos then some p.2
        else none).count reader =
      if k ≤ reader then
        ((vs[reader - k]?.map (·.inputs)).getD []).countP
          (g.positions[·.producer]? = some pos)
      else 0 := by
    intro vs
    induction vs with
    | nil => intro k; simp
    | cons v vs ih =>
      intro k
      have hone : (v.inputs.filterMap fun e =>
          if g.positions[e.producer]? = some pos then some k
          else none).count reader =
          if k = reader then
            v.inputs.countP (g.positions[·.producer]? = some pos)
          else 0 := by
        induction v.inputs with
        | nil => simp
        | cons e es ihe =>
          by_cases he : g.positions[e.producer]? = some pos <;>
            by_cases hk : k = reader <;> simp_all
      rw [List.zipIdx_cons, List.flatMap_cons, List.count_append, hone,
        ih (k + 1)]
      rcases Nat.lt_trichotomy k reader with hlt | heq | hgt
      · have h1 : reader - k = reader - (k + 1) + 1 := by omega
        simp [Nat.ne_of_lt hlt, hlt, Nat.le_of_lt hlt, h1]
      · simp [heq]
      · have h1 : ¬ k ≤ reader := by omega
        have h2 : ¬ k + 1 ≤ reader := by omega
        simp [Nat.ne_of_gt hgt, h1, h2]
  have h := hstep g.vertices 0
  rw [if_pos (Nat.zero_le _), Nat.sub_zero] at h
  exact h

namespace Sorting

/-- What holds while the dependents of a taken vertex are released, with
those still to be released. -/
structure Sound (g : JobGraph) (s : Sorting) (left : List Nat) : Prop where
  nodup : (s.taken ++ s.queue).Nodup
  bound : ∀ pos ∈ s.taken ++ s.queue, pos < g.vertices.length
  waiting : ∀ pos < g.vertices.length,
    s.waiting[pos]? = some (g.pendingInputs s.taken pos + left.count pos)
  /-- A vertex is ready when it waits for nothing. -/
  ready : ∀ pos < g.vertices.length,
    pos ∈ s.taken ++ s.queue ↔ s.waiting[pos]? = some 0

theorem mem_queue_start {pos : Nat} : pos ∈ (Sorting.start g).queue ↔
    ∃ v, g.vertices[pos]? = some v ∧ v.inputs = [] := by
  simp [Sorting.start, List.mem_zipIdx_iff_getElem?]

theorem sound_start : Sound g (Sorting.start g) [] := by
  have hpending : ∀ pos, g.pendingInputs [] pos = (g.inputsAt pos).length := by
    intro pos
    simp [pendingInputs, isPending]
  have hwaiting : ∀ pos < g.vertices.length,
      (Sorting.start g).waiting[pos]? = some (g.inputsAt pos).length := by
    intro pos hpos
    simp [Sorting.start, inputsAt, hpos]
  have hqueue : (Sorting.start g).queue.Nodup := by
    have hsub : (Sorting.start g).queue.Sublist
        (g.vertices.zipIdx.map Prod.snd) := List.filter_sublist.map _
    rw [List.zipIdx_map_snd] at hsub
    exact hsub.nodup List.nodup_range'
  refine ⟨by simpa [Sorting.start] using hqueue, ?_, ?_, ?_⟩
  · intro pos hpos
    obtain ⟨v, hv, -⟩ :=
      mem_queue_start.mp (by simpa [Sorting.start] using hpos)
    exact (List.getElem?_eq_some_iff.mp hv).1
  · intro pos hpos
    rw [hwaiting pos hpos]
    show _ = some (g.pendingInputs [] pos + _)
    rw [hpending, List.count_nil, Nat.add_zero]
  · intro pos hpos
    show pos ∈ [] ++ (Sorting.start g).queue ↔ _
    rw [List.nil_append, mem_queue_start, hwaiting pos hpos]
    simp [inputsAt, hpos]

/-- One input of a vertex is released. -/
theorem Sound.release {s : Sorting} {pos : Nat} {left : List Nat}
    (h : Sound g s (pos :: left)) (hpos : pos < g.vertices.length) :
    Sound g (s.release pos) left := by
  have hold := h.waiting pos hpos
  rw [List.count_cons_self] at hold
  set n := g.pendingInputs s.taken pos + left.count pos with hn
  have hnew : (s.waiting.modify pos (· - 1))[pos]? = some n := by
    rw [List.getElem?_modify_eq, hold]
    simp
    omega
  -- The vertex still waited for this input, so it was not ready before.
  have hnot : pos ∉ s.taken ++ s.queue := by
    rw [h.ready pos hpos, hold]
    simp
  have hother : ∀ p, pos ≠ p →
      (s.waiting.modify pos (· - 1))[p]? = s.waiting[p]? := by
    intro p hp
    rw [List.getElem?_modify_ne _ _ hp]
  have hwaiting : ∀ p < g.vertices.length,
      (s.waiting.modify pos (· - 1))[p]? =
        some (g.pendingInputs s.taken p + left.count p) := by
    intro p hp
    by_cases heq : pos = p
    · exact heq ▸ hnew
    · rw [hother p heq, h.waiting p hp, List.count_cons_of_ne heq]
  unfold Sorting.release
  simp only [hnew]
  by_cases hz : n = 0
  · rw [if_pos (by rw [hz])]
    refine ⟨?_, ?_, hwaiting, ?_⟩
    · rw [← List.append_assoc, List.nodup_append]
      refine ⟨h.nodup, List.nodup_singleton _, ?_⟩
      intro a ha b hb hab
      rw [List.mem_singleton] at hb
      exact hnot (hb ▸ hab ▸ ha)
    · intro p hp
      rw [← List.append_assoc, List.mem_append, List.mem_singleton] at hp
      rcases hp with hp | rfl
      · exact h.bound p hp
      · exact hpos
    · intro p hp
      rw [← List.append_assoc, List.mem_append, List.mem_singleton]
      by_cases heq : pos = p
      · subst heq
        simp [hnew, hz]
      · rw [hother p heq, ← h.ready p hp]
        simp [Ne.symm heq]
  · rw [if_neg (by simpa using hz)]
    refine ⟨h.nodup, h.bound, hwaiting, ?_⟩
    intro p hp
    by_cases heq : pos = p
    · subst heq
      simp [hnew, hz, hnot]
    · show p ∈ s.taken ++ s.queue ↔ _
      rw [hother p heq, h.ready p hp]

theorem Sound.releaseAll {left : List Nat} {s : Sorting} (h : Sound g s left)
    (hleft : ∀ pos ∈ left, pos < g.vertices.length) :
    Sound g (left.foldl Sorting.release s) [] := by
  induction left generalizing s with
  | nil => exact h
  | cons pos left ih =>
    exact ih (h.release (hleft pos List.mem_cons_self))
      fun p hp => hleft p (List.mem_cons_of_mem _ hp)

/-- The first ready vertex is taken. -/
theorem Sound.take {s : Sorting} {pos : Nat} {queue : List Nat}
    (h : Sound g s []) (hq : s.queue = pos :: queue) :
    Sound g { s with queue, taken := s.taken ++ [pos] }
      (g.dependents pos) := by
  have hmem : s.taken ++ [pos] ++ queue = s.taken ++ s.queue := by simp [hq]
  refine ⟨hmem ▸ h.nodup, fun p hp => h.bound p (hmem ▸ hp), ?_, ?_⟩
  · intro p hp
    have hpos : pos ∉ s.taken := by
      have hnodup := h.nodup
      rw [hq, List.nodup_append] at hnodup
      intro hmem
      exact hnodup.2.2 pos hmem pos List.mem_cons_self rfl
    show s.waiting[p]? = _
    rw [h.waiting p hp, List.count_nil, Nat.add_zero,
      pendingInputs_snoc hpos p, count_dependents]
  · intro p hp
    show p ∈ s.taken ++ [pos] ++ queue ↔ s.waiting[p]? = _
    rw [hmem]
    exact h.ready p hp

theorem dependents_lt {pos reader : Nat} (h : reader ∈ g.dependents pos) :
    reader < g.vertices.length := by
  simp only [dependents, List.mem_flatMap, List.mem_filterMap] at h
  obtain ⟨⟨v, i⟩, hv, e, -, he⟩ := h
  rw [List.mem_zipIdx_iff_getElem?] at hv
  split at he
  · cases he
    exact (List.getElem?_eq_some_iff.mp hv).1
  · cases he

/-- What holds of a sort is carried from one taken vertex to the next. -/
theorem Sound.run_induction {P : Sorting → Prop}
    (hstep : ∀ s pos queue, Sound g s [] → s.queue = pos :: queue → P s →
      P ((g.dependents pos).foldl Sorting.release
        { s with queue, taken := s.taken ++ [pos] }))
    {s : Sorting} (h : Sound g s []) (hs : P s) (fuel : Nat) :
    Sound g (Sorting.run g fuel s) [] ∧ P (Sorting.run g fuel s) := by
  induction fuel generalizing s with
  | zero => exact ⟨h, hs⟩
  | succ fuel ih =>
    unfold Sorting.run
    split
    · exact ⟨h, hs⟩
    · rename_i pos queue hq
      exact ih ((h.take hq).releaseAll fun p hp => dependents_lt hp)
        (hstep s pos queue h hq hs)

end Sorting

theorem sorted_eq_ok_iff {order : List JobVertex} :
    g.sorted = .ok order ↔ g.validate = .ok () ∧
      g.sorting.taken.length = g.vertices.length ∧
      order = g.sorting.taken.filterMap (g.vertices[·]?) := by
  unfold sorted
  cases g.validate with
  | error e => simp [bind, Except.bind]
  | ok _ =>
    by_cases hlen : g.sorting.taken.length = g.vertices.length
    · simp [bind, Except.bind, pure, Except.pure, hlen, eq_comm]
    · simp [bind, Except.bind, throw, throwThe, MonadExceptOf.throw, hlen]

/-- A vertex is valid if it has subtasks and its producers are indexed. -/
theorem validate_eq_ok_iff : g.validate = .ok () ↔ ∀ v ∈ g.vertices,
    0 < v.parallelism ∧ ∀ e ∈ v.inputs, e.producer ∈ g.positions := by
  rw [validate, forM_eq_ok_iff]
  refine forall₂_congr fun v _ => ?_
  have hinputs : (v.inputs.forM fun e =>
      if g.positions.contains e.producer then pure ()
      else throw (.invalidGraph (.unknownProducer v.name e.producer)) :
        Except Error PUnit) = .ok ⟨⟩ ↔
      ∀ e ∈ v.inputs, e.producer ∈ g.positions := by
    rw [forM_eq_ok_iff]
    refine forall₂_congr fun e _ => ?_
    rw [← Std.TreeMap.contains_iff_mem]
    split <;>
      simp_all [pure, Except.pure, throw, throwThe, MonadExceptOf.throw]
  rw [← hinputs]
  by_cases hz : v.parallelism = 0
  · simp [hz, bind, Except.bind, throw, throwThe, MonadExceptOf.throw]
  · simp [hz, Nat.pos_of_ne_zero hz, pure, Except.pure]

/-- A graph that can be sorted has subtasks at every vertex. -/
theorem parallelism_pos {order : List JobVertex} (h : g.sorted = .ok order) :
    ∀ v ∈ g.vertices, 0 < v.parallelism := fun v hv =>
  (validate_eq_ok_iff.mp (sorted_eq_ok_iff.mp h).1 v hv).1

theorem sound_sorting (g : JobGraph) : Sorting.Sound g g.sorting [] :=
  (Sorting.sound_start.run_induction (P := fun _ => True)
    (fun _ _ _ _ _ _ => trivial) trivial g.vertices.length).1

/-- If nothing is left over, every position has been taken once. -/
theorem taken_perm (hlength : g.sorting.taken.length = g.vertices.length) :
    g.sorting.taken.Perm (List.range g.vertices.length) := by
  have hsound := sound_sorting g
  have hnodup := (List.nodup_append.mp hsound.nodup).1
  apply List.Subperm.perm_of_length_le
  · apply List.subperm_of_subset hnodup
    intro pos hpos
    exact List.mem_range.mpr (hsound.bound pos (List.mem_append_left _ hpos))
  · rw [List.length_range, hlength]

/-- What a graph is sorted into are its vertices, each once. -/
theorem sorted_perm {order : List JobVertex} (h : g.sorted = .ok order) :
    order.Perm g.vertices := by
  obtain ⟨-, hlength, rfl⟩ := sorted_eq_ok_iff.mp h
  have hall := (taken_perm hlength).filterMap (g.vertices[·]?)
  rwa [filterMap_getElem?_range] at hall

end JobGraph

end ControlPlane
