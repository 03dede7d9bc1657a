import Mathlib
import ControlPlane.Proofs.Region.Component

/-!
# A search finds all components

Every step keeps the invariant and uses up one node or one edge, so the
steps allowed suffice to leave every node that was opened. Opening the
nodes one after the other then closes all components.
-/

namespace ControlPlane

namespace ComponentSearch

open Region

variable {n : Nat} {succ : Nat → List Nat} {s : ComponentSearch}
  {seen : Nat → List Nat}

/-! ## One step -/

theorem Invariant.mem_succ (h : Invariant n succ s seen) {v x : Nat}
    {rest : List Nat} {work : List (Nat × List Nat)}
    (hwork : s.work = (v, x :: rest) :: work) : x ∈ succ v := by
  rw [h.progress.visiting v (x :: rest) (hwork ▸ List.mem_cons_self)]
  simp

/-- An unopened successor is visited next. -/
theorem Invariant.visit (h : Invariant n succ s seen) {v x : Nat}
    {rest : List Nat} {work : List (Nat × List Nat)}
    (hwork : s.work = (v, x :: rest) :: work) (hx : x < n)
    (hnew : ¬ s.Opened x) :
    Invariant n succ
      ({ s with work := (v, rest) :: work }.openNode x (succ x))
      (Function.update seen v (seen v ++ [x])) := by
  have hv : v ∈ s.visiting := by simp [visiting, hwork]
  have hvstack := h.layout.mem_stack hv
  -- Every visited node is numbered up to `v`, so it reaches `v`, which leads
  -- to the new node.
  have hopened := h.openNode hx hnew (by
    intro u hu
    have hle : s.number u ≤ s.number v := by
      rw [visiting, hwork] at hu
      rcases List.mem_cons.mp hu with rfl | hu
      · exact le_rfl
      · exact (h.layout.number_le_head hwork hu).le
    exact (h.linked.up u hu v hvstack hle).tail (h.mem_succ hwork))
  refine hopened.advance [(x, succ x)] rest work
    ?_ ?_ ?_
  · show (x, succ x) :: s.work = _
    rw [hwork]
    rfl
  · exact (opened_openNode h.layout hx x).mpr (.inl rfl)
  · intro _
    have hne : v ≠ x := fun heq => hnew (heq ▸ h.layout.opened v hvstack)
    rw [lowOf_openNode h.layout hx, if_neg hne,
      number_openNode h.layout hx, if_pos rfl]
    exact ((h.linked.low_le v hv).trans_lt
      (h.layout.lt_next v (h.layout.opened v hvstack))).le

/-- A node without further successors is left. -/
theorem Invariant.leave (h : Invariant n succ s seen) {v : Nat}
    {work : List (Nat × List Nat)} (hwork : s.work = (v, []) :: work) :
    Invariant n succ (s.leave v work) seen := by
  have hv : v ∈ s.visiting := by simp [visiting, hwork]
  have hvopen := h.layout.opened v (h.layout.mem_stack hv)
  -- Closing or not is decided by the numbers of the node alone.
  have hdecide : ∀ s1 : ComponentSearch, Invariant n succ s1 seen →
      s1.work = s.work → s1.index = s.index →
      (∀ p rest tail, work = (p, rest) :: tail → s1.lowOf p ≤ s1.lowOf v) →
      Invariant n succ
        (if s1.indexOf v = some (s1.lowOf v) then
          { s1 with work }.closeComponent v
        else { s1 with work }) seen := by
    intro s1 h1 hwork1 hindex1 hparent
    have hnumber : s1.indexOf v = some (s1.number v) := by
      apply indexOf_eq_number
      rw [Opened, indexOf, hindex1]
      exact hvopen
    have hv1 : v ∈ s1.visiting := by simp [visiting, hwork1, hwork]
    rw [hnumber]
    split
    · rename_i heq
      exact h1.close (hwork1.trans hwork) (Option.some.inj heq).symm
    · rename_i hne
      refine h1.pass (hwork1.trans hwork) ?_ hparent
      have hle := h1.linked.low_le v hv1
      have hne' : s1.number v ≠ s1.lowOf v := fun heq =>
        hne (congrArg some heq)
      omega
  cases work with
  | nil => exact hdecide s h rfl rfl (by simp)
  | cons frame tail =>
    obtain ⟨p, rest⟩ := frame
    have hp : p ∈ s.visiting := by simp [visiting, hwork]
    have hplt : p < n :=
      Opened.lt h.layout (h.layout.opened p (h.layout.mem_stack hp))
    have hpv : s.number p < s.number v :=
      h.layout.number_le_head hwork (by simp)
    have hlowered := h.lower (u := p) (i := s.lowOf v) hp (by
      obtain ⟨w, hw, hlow, hr⟩ := h.linked.low_reached v hv
      exact ⟨w, hw, hlow, (h.linked.up p hp v (h.layout.mem_stack hv)
        hpv.le).trans hr⟩)
    refine hdecide (s.lower p (s.lowOf v)) hlowered rfl rfl ?_
    intro q rest' tail' heq
    cases heq
    have hne : v ≠ p := by
      rintro rfl
      exact Nat.lt_irrefl _ hpv
    rw [lowOf_lower h.layout hplt, lowOf_lower h.layout hplt, if_pos rfl,
      if_neg hne]
    exact min_le_right _ _

theorem Invariant.step (h : Invariant n succ s seen)
    (hsucc : ∀ v, ∀ w ∈ succ v, w < n) :
    ∃ seen', Invariant n succ (s.step succ) seen' := by
  unfold ComponentSearch.step
  split
  · exact ⟨seen, h⟩
  · rename_i v x rest work hwork
    have hv : v ∈ s.visiting := by simp [visiting, hwork]
    have hx := hsucc v x (h.mem_succ hwork)
    -- The successor is new, or on the stack, or in a component already.
    dsimp only
    split
    · rename_i hindex
      have hnew : ¬ s.Opened x := by
        have hnone : s.indexOf x = none := hindex
        simp [Opened, hnone]
      exact ⟨_, h.visit hwork hx hnew⟩
    · rename_i i hindex
      have hi : s.indexOf x = some i := hindex
      have hopen : s.Opened x := by simp [Opened, hi]
      have hnumber : s.number x = i := by simp [number, hi]
      have hvlt : v < n :=
        Opened.lt h.layout (h.layout.opened v (h.layout.mem_stack hv))
      split
      · rename_i hisOpen
        have hxs : x ∈ s.stack := (h.layout.isOpen x).mp hisOpen
        have hlowered := h.lower (i := i) hv
          ⟨x, hxs, hnumber, .single (h.mem_succ hwork)⟩
        refine ⟨_, hlowered.advance [] rest work hwork hopen ?_⟩
        intro _
        rw [lowOf_lower h.layout hvlt, if_pos rfl]
        exact (min_le_right _ _).trans hnumber.ge
      · rename_i hisOpen
        have hxs : x ∉ s.stack := fun hmem =>
          hisOpen ((h.layout.isOpen x).mpr hmem)
        exact ⟨_, h.advance [] rest work hwork hopen fun hmem =>
          absurd hmem hxs⟩
  · rename_i v work hwork
    exact ⟨seen, h.leave hwork⟩

/-! ## Steps left -/

/-- One for every node and edge that is still to be looked at. -/
def remaining (n : Nat) (succ : Nat → List Nat) (s : ComponentSearch) : Nat :=
  (s.work.map fun frame => 1 + frame.2.length).sum +
    ∑ v ∈ Finset.range n,
      if (s.indexOf v).isSome then 0 else 1 + (succ v).length

variable (succ) in
theorem remaining_openNode (hl : Layout n s) {x : Nat} (hx : x < n)
    (hnew : ¬ s.Opened x) :
    remaining n succ (s.openNode x (succ x)) = remaining n succ s := by
  have hrange := Finset.mem_range.mpr hx
  have hsum : (∑ v ∈ Finset.range n,
      if (s.indexOf v).isSome then 0 else 1 + (succ v).length) =
      (1 + (succ x).length) + ∑ v ∈ Finset.range n,
        if ((s.openNode x (succ x)).indexOf v).isSome then 0
        else 1 + (succ v).length := by
    rw [← Finset.add_sum_erase _ _ hrange, ← Finset.add_sum_erase _ _ hrange]
    have hnone : (s.indexOf x).isSome = false := by
      simpa [Opened] using hnew
    rw [indexOf_openNode hl hx, if_pos rfl, hnone]
    simp only [Bool.false_eq_true, if_false, Option.isSome_some, if_true,
      Nat.zero_add]
    congr 1
    apply Finset.sum_congr rfl
    intro v hv
    rw [indexOf_openNode hl hx, if_neg (Finset.ne_of_mem_erase hv)]
  unfold remaining
  rw [hsum]
  show (((x, succ x) :: s.work).map _).sum + _ = _
  rw [List.map_cons, List.sum_cons]
  dsimp only
  omega

variable (n succ s) in
/-- The steps left only depend on the numbers and on the work. -/
theorem remaining_of_work (s' : ComponentSearch)
    {work work' : List (Nat × List Nat)} (hindex : s'.index = s.index)
    (hwork : s.work = work) (hwork' : s'.work = work') :
    remaining n succ s' + (work.map fun f => 1 + f.2.length).sum =
      remaining n succ s + (work'.map fun f => 1 + f.2.length).sum := by
  unfold remaining indexOf
  rw [hindex, hwork, hwork']
  omega

theorem index_leave (v : Nat) (work : List (Nat × List Nat)) :
    (s.leave v work).index = s.index ∧ (s.leave v work).work = work := by
  unfold ComponentSearch.leave
  cases work with
  | nil =>
    dsimp only
    split <;> exact ⟨rfl, rfl⟩
  | cons frame tail =>
    dsimp only
    split <;> exact ⟨rfl, rfl⟩

/-- Every step uses up one of the steps left. -/
theorem Invariant.remaining_step (h : Invariant n succ s seen)
    (hsucc : ∀ v, ∀ w ∈ succ v, w < n) (hwork : s.work ≠ []) :
    remaining n succ (s.step succ) + 1 = remaining n succ s := by
  unfold ComponentSearch.step
  split
  · rename_i hnil
    exact absurd hnil hwork
  · rename_i v x rest work hwork
    have hx := hsucc v x (h.mem_succ hwork)
    dsimp only
    split
    · rename_i hindex
      have hnone : s.indexOf x = none := hindex
      have hnew : ¬ s.Opened x := by simp [Opened, hnone]
      have hopened := remaining_openNode succ h.layout hx hnew
      have hmoved := remaining_of_work n succ (s.openNode x (succ x))
        ({ s with work := (v, rest) :: work }.openNode x (succ x)) rfl
        (congrArg ((x, succ x) :: ·) hwork)
        (rfl : _ = (x, succ x) :: (v, rest) :: work)
      simp only [List.map_cons, List.sum_cons, List.length_cons] at hmoved
      omega
    · rename_i i _
      split
      · have hlowered := remaining_of_work n succ s
          ({ s with work := (v, rest) :: work }.lower v i) rfl hwork
          (rfl : _ = (v, rest) :: work)
        simp only [List.map_cons, List.sum_cons, List.length_cons]
          at hlowered
        omega
      · have hskipped := remaining_of_work n succ s
          { s with work := (v, rest) :: work } rfl hwork
          (rfl : _ = (v, rest) :: work)
        simp only [List.map_cons, List.sum_cons, List.length_cons]
          at hskipped
        omega
  · rename_i v work hwork
    obtain ⟨hindex, hwork'⟩ := index_leave (s := s) v work
    have hleft := remaining_of_work n succ s _ hindex hwork hwork'
    simp only [List.map_cons, List.sum_cons, List.length_nil] at hleft
    omega

/-! ## All steps -/

/-- Enough steps finish all visits. -/
theorem Invariant.run (h : Invariant n succ s seen)
    (hsucc : ∀ v, ∀ w ∈ succ v, w < n) {fuel : Nat}
    (hfuel : remaining n succ s ≤ fuel) :
    ∃ seen', Invariant n succ (s.run succ fuel) seen' ∧
      (s.run succ fuel).work = [] := by
  induction fuel generalizing s seen with
  | zero =>
    refine ⟨seen, h, ?_⟩
    by_contra hne
    have hstep := h.remaining_step hsucc hne
    omega
  | succ fuel ih =>
    unfold ComponentSearch.run
    by_cases hwork : s.work = []
    · rw [if_pos (by simp [hwork])]
      exact ⟨seen, h, hwork⟩
    · rw [if_neg (by simpa using hwork)]
      obtain ⟨seen', hstep⟩ := h.step hsucc
      have hremaining := h.remaining_step hsucc hwork
      exact ih hstep (by omega)

/-- Opened nodes stay opened. -/
theorem Opened.step {succ : Nat → List Nat} {v : Nat} (hv : s.Opened v) :
    (s.step succ).Opened v := by
  unfold ComponentSearch.step
  split
  · exact hv
  · rename_i u x rest work hwork
    dsimp only
    split
    · simp only [Opened, indexOf, openNode, Array.getElem?_setIfInBounds]
      split
      · split <;> simp_all [Opened, indexOf]
      · exact hv
    · split <;> exact hv
  · rename_i u work hwork
    rw [Opened, indexOf, (index_leave u work).1]
    exact hv

theorem Opened.run {succ : Nat → List Nat} {v : Nat} (hv : s.Opened v)
    (fuel : Nat) : (s.run succ fuel).Opened v := by
  induction fuel generalizing s with
  | zero => exact hv
  | succ fuel ih =>
    unfold ComponentSearch.run
    split
    · exact hv
    · exact ih hv.step

theorem invariant_start (n : Nat) (succ : Nat → List Nat) :
    Invariant n succ (start n) fun _ => [] := by
  have hnone : ∀ v, (start n).indexOf v = none := by
    intro v
    simp only [indexOf, start, Array.getElem?_replicate]
    split <;> rfl
  have hclosed : ∀ v, ¬ (start n).Opened v := by
    intro v
    simp [Opened, hnone]
  refine ⟨?_, ?_, ?_, ?_⟩
  · refine ⟨by simp [start], by simp [start], by simp [start],
      fun v hv => absurd hv (hclosed v), by simp [start], .nil, ?_,
      .slnil⟩
    intro v
    simp only [start, Array.getElem?_replicate]
    split <;> simp
  · exact ⟨by simp [start], fun v hv => absurd hv (hclosed v),
      fun _ _ => rfl, by simp⟩
  · refine ⟨?_, ?_, ?_, ?_, ?_⟩ <;> simp [visiting, start]
  · refine ⟨fun v hv => absurd hv (hclosed v), ?_, ?_, ?_, ?_, .nil, .nil⟩
    · intro v
      exact iff_of_false (by simp [start]) fun hv => hclosed v hv.1
    all_goals simp [start]

/-- What is left when the visits of all nodes are over. -/
theorem Invariant.classes (h : Invariant n succ s seen) (hwork : s.work = [])
    (hall : ∀ v < n, s.Opened v) :
    Classes n (Reaches succ) s.components.reverse := by
  -- Every node on the stack is reached from a visited one, and no node is
  -- visited any more.
  have hstack : s.stack = [] := by
    rw [List.eq_nil_iff_forall_not_mem]
    intro w hw
    obtain ⟨u, hu, -⟩ := h.linked.down w hw
    simp [visiting, hwork] at hu
  have hs := h.settled
  exact
    { covers := by
        intro v
        simp only [List.mem_reverse]
        rw [hs.covers, hstack]
        constructor
        · intro hv
          exact Opened.lt h.layout hv.1
        · intro hv
          exact ⟨hall v hv, List.not_mem_nil⟩
      nonempty := by
        simpa using hs.nonempty
      nodup := by
        simpa using hs.nodup
      related := by
        simpa using hs.related
      disjoint := by
        rw [List.pairwise_reverse]
        exact hs.disjoint.imp fun hcd => hcd.symm }

end ComponentSearch

open ComponentSearch Region

/-- The steps allowed suffice for everything that can be reached. -/
theorem ComponentSearch.remaining_le (n : Nat) (succ : Nat → List Nat)
    {s : ComponentSearch} (hwork : s.work = []) :
    remaining n succ s ≤ n + ((List.range n).flatMap succ).length := by
  have hall : (∑ v ∈ Finset.range n, (1 + (succ v).length)) =
      n + ((List.range n).flatMap succ).length := by
    rw [Finset.sum_add_distrib, Finset.sum_const, Finset.card_range,
      smul_eq_mul, mul_one, List.length_flatMap]
    rfl
  rw [← hall, remaining, hwork, List.map_nil, List.sum_nil, Nat.zero_add]
  apply Finset.sum_le_sum
  intro v _
  split
  · exact Nat.zero_le _
  · exact le_rfl

/-- The search ends with all nodes opened and none being visited. -/
theorem exists_search {n : Nat} {succ : Nat → List Nat}
    (hsucc : ∀ v, ∀ w ∈ succ v, w < n) :
    ∃ (s : ComponentSearch) (seen : Nat → List Nat),
      stronglyConnected n succ = s.components.reverse ∧
      Invariant n succ s seen ∧ s.work = [] ∧ ∀ v < n, s.Opened v := by
  unfold stronglyConnected
  set steps := n + ((List.range n).flatMap succ).length with hsteps
  -- After the first roots, these are opened and nothing is being visited.
  have hroots : ∀ k ≤ n, ∃ (s : ComponentSearch) (seen : Nat → List Nat),
      (List.range k).foldl (fun s root =>
        if (s.indexOf root).isSome then s
        else (s.openNode root (succ root)).run succ steps)
        (ComponentSearch.start n) = s ∧
      Invariant n succ s seen ∧ s.work = [] ∧ ∀ v < k, s.Opened v := by
    intro k
    induction k with
    | zero =>
      intro _
      exact ⟨_, _, rfl, invariant_start n succ, rfl, by simp⟩
    | succ k ih =>
      intro hk
      obtain ⟨s, seen, hs, hinv, hwork, hopened⟩ := ih (by omega)
      rw [List.range_succ, List.foldl_append, hs, List.foldl_cons,
        List.foldl_nil]
      by_cases hopen : (s.indexOf k).isSome
      · rw [if_pos hopen]
        refine ⟨s, seen, rfl, hinv, hwork, ?_⟩
        intro v hv
        by_cases hvk : v = k
        · exact hvk ▸ hopen
        · exact hopened v (by omega)
      · rw [if_neg hopen]
        have hopenedk := hinv.openNode (x := k) (by omega) hopen (by
          simp [visiting, hwork])
        have hfuel : remaining n succ (s.openNode k (succ k)) ≤ steps := by
          rw [remaining_openNode _ hinv.layout (by omega) hopen]
          exact remaining_le n succ hwork
        obtain ⟨seen', hrun, hdone⟩ := hopenedk.run hsucc hfuel
        refine ⟨_, seen', rfl, hrun, hdone, ?_⟩
        intro v hv
        apply Opened.run
        rw [opened_openNode hinv.layout (by omega)]
        by_cases hvk : v = k
        · exact .inl hvk
        · exact .inr (hopened v (by omega))
  obtain ⟨s, seen, hs, hinv, hwork, hopened⟩ := hroots n le_rfl
  exact ⟨s, seen, congrArg (·.components.reverse) hs, hinv, hwork, hopened⟩

/-- The components found are the classes of nodes that reach each other. -/
theorem classes_stronglyConnected {n : Nat} {succ : Nat → List Nat}
    (hsucc : ∀ v, ∀ w ∈ succ v, w < n) :
    Classes n (Reaches succ) (stronglyConnected n succ) := by
  obtain ⟨s, seen, hs, hinv, hwork, hopened⟩ := exists_search hsucc
  rw [hs]
  exact hinv.classes hwork hopened

end ControlPlane
