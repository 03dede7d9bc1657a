import Mathlib
import ControlPlane.Proofs.Checked.Basic
import ControlPlane.Proofs.Region.Search

/-!
# The search for components looks up nothing that is not there

The invariant of the search bounds every node that it has on its stack or in
its work, and the steps left bound the number of steps that are taken.
-/

namespace ControlPlane

namespace Checked

/-! ## The checked search -/

/-- Numbers a node and starts to visit its successors. -/
def openNode (succ : Array (List Nat)) (s : ComponentSearch) (node : Nat) :
    Except Stop ComponentSearch := do
  let successors ← reach succ[node]?
  let _ ← reach s.index[node]?
  let _ ← reach s.low[node]?
  let _ ← reach s.isOpen[node]?
  return s.openNode node successors

/-- Records that a node reaches a number. -/
def lower (s : ComponentSearch) (node n : Nat) :
    Except Stop ComponentSearch := do
  let _ ← reach s.low[node]?
  return s.lower node n

/-- Takes the component of a node from the stack. -/
def closeComponent (s : ComponentSearch) (node : Nat) :
    Except Stop ComponentSearch := do
  s.stack.forM fun member => discard (reach s.isOpen[member]?)
  return s.closeComponent node

/-- Leaves a node whose successors are all visited. -/
def leave (s : ComponentSearch) (node : Nat) (work : List (Nat × List Nat)) :
    Except Stop ComponentSearch := do
  let s := { s with work }
  let s ← match work with
    | [] => pure s
    | (parent, _) :: _ => lower s parent (← reach s.low[node]?)
  if (← reach s.index[node]?) = some (← reach s.low[node]?) then
    closeComponent s node
  else return s

/-- Looks at one more successor of the node being visited, or leaves it. -/
def step (succ : Array (List Nat)) (s : ComponentSearch) :
    Except Stop ComponentSearch :=
  match s.work with
  | [] => return s
  | (node, next :: rest) :: work => do
    let s := { s with work := (node, rest) :: work }
    match ← reach s.index[next]? with
    | none => openNode succ s next
    | some n =>
      if ← reach s.isOpen[next]? then lower s node n else return s
  | (node, []) :: work => leave s node work

/-- Steps until no node is being visited. -/
def run (succ : Array (List Nat)) :
    Nat → ComponentSearch → Except Stop ComponentSearch
  | 0, s => if s.work.isEmpty then return s else throw .unfinished
  | fuel + 1, s => do
    if s.work.isEmpty then return s else run succ fuel (← step succ s)

/-- The strongly connected components of a graph. -/
def stronglyConnected (n : Nat) (succ : Array (List Nat)) :
    Except Stop (List (List Nat)) := do
  let steps := n + ((List.range n).flatMap (succ[·]?.getD [])).length
  let search ← (List.range n).foldlM (fun s root => do
    if (← reach s.index[root]?).isSome then return s
    else run succ steps (← openNode succ s root)) (ComponentSearch.start n)
  return search.components.reverse

/-! ## Every node is in range -/

open ComponentSearch Region

/-- The arrays have an entry for every node, and only nodes are on the
stack. -/
structure Roomy (n : Nat) (s : ComponentSearch) : Prop where
  index : s.index.size = n
  low : s.low.size = n
  isOpen : s.isOpen.size = n
  stack : ∀ v ∈ s.stack, v < n

section Access

variable {n : Nat} {s : ComponentSearch}

theorem roomy_of_layout (h : Layout n s) : Roomy n s :=
  ⟨h.index_size, h.low_size, h.isOpen_size,
    fun v hv => Opened.lt h (h.opened v hv)⟩

/-- Neither the work nor lower numbers change the room. -/
theorem Roomy.lower (h : Roomy n s) (v i : Nat) : Roomy n (s.lower v i) :=
  ⟨h.index, by simpa [ComponentSearch.lower] using h.low, h.isOpen, h.stack⟩

theorem Roomy.work (h : Roomy n s) (work : List (Nat × List Nat)) :
    Roomy n { s with work } := ⟨h.index, h.low, h.isOpen, h.stack⟩

variable (h : Roomy n s)

include h

theorem reach_index {v : Nat} (hv : v < n) :
    reach s.index[v]? = .ok (s.indexOf v) := by
  have hlt : v < s.index.size := h.index.symm ▸ hv
  simp [indexOf, hlt]

theorem reach_low {v : Nat} (hv : v < n) :
    reach s.low[v]? = .ok (s.lowOf v) := by
  have hlt : v < s.low.size := h.low.symm ▸ hv
  simp [lowOf, hlt]

theorem reach_isOpen {v : Nat} (hv : v < n) :
    reach s.isOpen[v]? = .ok (s.isOpen[v]?.getD false) := by
  have hlt : v < s.isOpen.size := h.isOpen.symm ▸ hv
  simp [hlt]

theorem openNode_eq_ok {succ : Array (List Nat)} (hsize : succ.size = n)
    {v : Nat} (hv : v < n) :
    openNode succ s v = .ok (s.openNode v (succ[v]?.getD [])) := by
  have hlt : v < succ.size := hsize.symm ▸ hv
  simp [openNode, reach_index h hv, reach_low h hv, reach_isOpen h hv, hlt]

theorem lower_eq_ok {v : Nat} (hv : v < n) (i : Nat) :
    lower s v i = .ok (s.lower v i) := by
  simp [lower, reach_low h hv]

theorem closeComponent_eq_ok (node : Nat) :
    closeComponent s node = .ok (s.closeComponent node) := by
  have hall : s.stack.forM (fun v => discard (reach s.isOpen[v]?)) =
      .ok ⟨⟩ := by
    rw [forM_eq_ok_iff]
    intro v hv
    rw [reach_isOpen h (h.stack v hv)]
    rfl
  rw [closeComponent, hall]
  rfl

theorem leave_eq_ok {node : Nat} {work : List (Nat × List Nat)}
    (hnode : node < n) (hwork : ∀ frame ∈ work, frame.1 < n) :
    leave s node work = .ok (s.leave node work) := by
  -- What is left to do does not depend on the way the numbers were lowered.
  have hclose : ∀ s' : ComponentSearch, Roomy n s' →
      (do
        if (← reach s'.index[node]?) = some (← reach s'.low[node]?) then
          closeComponent s' node
        else return s') = Except.ok
          (if s'.indexOf node = some (s'.lowOf node) then
            s'.closeComponent node else s') := by
    intro s' h'
    rw [reach_index h' hnode, ok_bind, reach_low h' hnode, ok_bind,
      closeComponent_eq_ok h']
    split <;> rfl
  cases work with
  | nil => exact hclose _ (h.work [])
  | cons frame rest =>
    have hparent := hwork frame List.mem_cons_self
    have hroom := h.work (frame :: rest)
    have hlower := lower_eq_ok hroom hparent (s.lowOf node)
    have hlow : reach s.low[node]? = .ok (s.lowOf node) := reach_low h hnode
    simp only [leave, hlow, ok_bind]
    rw [hlower, ok_bind]
    exact hclose _ (hroom.lower frame.1 (s.lowOf node))

end Access

/-! ## One step -/

section Search

variable {n : Nat} {succ : Array (List Nat)} {s : ComponentSearch}
  {seen : Nat → List Nat}

/-- The nodes in the work are nodes of the graph. -/
theorem lt_of_mem_work (h : Layout n s) {frame : Nat × List Nat}
    (hframe : frame ∈ s.work) : frame.1 < n :=
  (roomy_of_layout h).stack _ (h.mem_stack (List.mem_map_of_mem hframe))

variable (h : Invariant n (succ[·]?.getD []) s seen)
  (hsize : succ.size = n) (hsucc : ∀ v : Nat, ∀ w ∈ succ[v]?.getD [], w < n)

include h hsize hsucc

theorem step_eq_ok :
    step succ s = .ok (s.step (succ[·]?.getD [])) := by
  have hroom := roomy_of_layout h.layout
  have hlt : ∀ frame ∈ s.work, frame.1 < n := fun _ hframe =>
    lt_of_mem_work h.layout hframe
  unfold step ComponentSearch.step
  cases hwork : s.work with
  | nil => rfl
  | cons frame work =>
    rw [hwork] at hlt
    obtain ⟨hnode, hrest⟩ := List.forall_mem_cons.mp hlt
    obtain ⟨node, rest⟩ := frame
    cases rest with
    | nil => exact leave_eq_ok hroom hnode hrest
    | cons next rest =>
      have hmem : next ∈ succ[node]?.getD [] := by
        rw [h.progress.visiting node (next :: rest)
          (hwork ▸ List.mem_cons_self)]
        simp
      have hnext := hsucc node next hmem
      have hroom' := hroom.work ((node, rest) :: work)
      have hindex := reach_index hroom' hnext
      have hopen := reach_isOpen hroom hnext
      dsimp only at hindex ⊢
      rw [hindex, ok_bind, hopen]
      cases ({ s with work := (node, rest) :: work } :
          ComponentSearch).indexOf next with
      | none => exact openNode_eq_ok hroom' hsize hnext
      | some i =>
        dsimp only
        rw [ok_bind]
        split
        · exact lower_eq_ok hroom' hnode i
        · rfl

/-- The steps that are left suffice. -/
theorem run_eq_ok {fuel : Nat}
    (hfuel : remaining n (succ[·]?.getD []) s ≤ fuel) :
    run succ fuel s = .ok (s.run (succ[·]?.getD []) fuel) := by
  induction fuel generalizing s seen with
  | zero =>
    have hwork : s.work = [] := by
      by_contra hne
      have hstep := h.remaining_step hsucc hne
      omega
    simp [run, ComponentSearch.run, hwork]
  | succ fuel ih =>
    unfold run ComponentSearch.run
    by_cases hwork : s.work = []
    · simp [hwork]
    · have hempty : s.work.isEmpty = false := by simpa using hwork
      obtain ⟨seen', hstep⟩ := h.step hsucc
      have hremaining := h.remaining_step hsucc hwork
      rw [hempty, step_eq_ok h hsize hsucc, ok_bind]
      exact ih hstep (by omega)

end Search

/-! ## All nodes -/

theorem stronglyConnected_eq_ok {n : Nat} {succ : Array (List Nat)}
    (hsize : succ.size = n)
    (hsucc : ∀ v : Nat, ∀ w ∈ succ[v]?.getD [], w < n) :
    stronglyConnected n succ =
      .ok (ControlPlane.stronglyConnected n (succ[·]?.getD [])) := by
  set steps := n + ((List.range n).flatMap (succ[·]?.getD [])).length
    with hsteps
  -- Nothing is being visited between two roots.
  have hsearch := (foldlM_eq_ok (l := List.range n)
    (P := fun s => ∃ seen, Invariant n (succ[·]?.getD []) s seen ∧
      s.work = [])
    (f := fun s root => do
      if (← reach s.index[root]?).isSome then return s
      else run succ steps (← openNode succ s root))
    (g := fun s root =>
      if (s.indexOf root).isSome then s
      else (s.openNode root (succ[root]?.getD [])).run (succ[·]?.getD [])
        steps)
    (fun root hroot s hs => by
      obtain ⟨seen, h, hwork⟩ := hs
      have hlt := List.mem_range.mp hroot
      have hroom := roomy_of_layout h.layout
      rw [reach_index hroom hlt, ok_bind, openNode_eq_ok hroom hsize hlt,
        ok_bind]
      by_cases hopen : (s.indexOf root).isSome
      · rw [if_pos hopen, if_pos hopen]
        exact ⟨rfl, seen, h, hwork⟩
      · rw [if_neg hopen, if_neg hopen]
        have hopened := h.openNode (x := root) hlt hopen (by
          simp [visiting, hwork])
        have hfuel : remaining n (succ[·]?.getD [])
            (s.openNode root (succ[root]?.getD [])) ≤ steps := by
          rw [remaining_openNode (succ[·]?.getD []) h.layout hlt hopen]
          exact remaining_le n _ hwork
        obtain ⟨seen', hrun, hdone⟩ := hopened.run hsucc hfuel
        exact ⟨run_eq_ok hopened hsize hsucc hfuel, seen', hrun, hdone⟩)
    ⟨_, invariant_start n _, rfl⟩).1
  unfold stronglyConnected
  dsimp only
  rw [← hsteps, hsearch]
  rfl

end Checked

end ControlPlane
