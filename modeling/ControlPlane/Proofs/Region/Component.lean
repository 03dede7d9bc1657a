import Mathlib
import ControlPlane.Region.Component
import ControlPlane.Proofs.Region.Classes

/-!
# The components of a search are the strongly connected ones

The search keeps its nodes on a stack while their components are open. A
node that is being visited reaches everything above it on the stack, and
everything on the stack reaches a node below it that is being visited; the
low number of a visited node bounds all edges that leave its part of the
stack. When a node reaches nothing lower than itself, no edge leaves its
part, which therefore is one component.
-/

namespace ControlPlane

namespace ComponentSearch

open Region

/-- Whether a node was opened. -/
def Opened (s : ComponentSearch) (v : Nat) : Prop := (s.indexOf v).isSome

/-- The number of a node that was opened. -/
def number (s : ComponentSearch) (v : Nat) : Nat := (s.indexOf v).getD 0

/-- The nodes being visited, the latest first. -/
def visiting (s : ComponentSearch) : List Nat := s.work.map (·.1)

/-! ## What holds during a search -/

/-- How the parts of a search over `n` nodes belong together. -/
structure Layout (n : Nat) (s : ComponentSearch) : Prop where
  index_size : s.index.size = n
  low_size : s.low.size = n
  isOpen_size : s.isOpen.size = n
  lt_next : ∀ v, s.Opened v → s.number v < s.next
  opened : ∀ v ∈ s.stack, s.Opened v
  sorted : s.stack.Pairwise fun v w => s.number w < s.number v
  isOpen : ∀ v, s.isOpen[v]?.getD false = true ↔ v ∈ s.stack
  visiting : s.visiting.Sublist s.stack

/-- Which successors were looked at: those before the rest of a visited
node, and all successors of a node that was left. -/
structure Progress (succ : Nat → List Nat) (s : ComponentSearch)
    (seen : Nat → List Nat) : Prop where
  visiting : ∀ v rest, (v, rest) ∈ s.work → succ v = seen v ++ rest
  left : ∀ v, s.Opened v → v ∉ s.visiting → seen v = succ v
  unopened : ∀ v, ¬ s.Opened v → seen v = []
  opened : ∀ v, ∀ w ∈ seen v, s.Opened w

/-- How visited nodes and the nodes on the stack reach each other. -/
structure Linked (succ : Nat → List Nat) (s : ComponentSearch)
    (seen : Nat → List Nat) : Prop where
  up : ∀ u ∈ s.visiting, ∀ w ∈ s.stack, s.number u ≤ s.number w →
    Reaches succ u w
  down : ∀ w ∈ s.stack, ∃ u ∈ s.visiting,
    s.number u ≤ s.number w ∧ Reaches succ w u
  low_le : ∀ u ∈ s.visiting, s.lowOf u ≤ s.number u
  low_reached : ∀ u ∈ s.visiting,
    ∃ w ∈ s.stack, s.number w = s.lowOf u ∧ Reaches succ u w
  /-- The part of the stack that belongs to a visited node reaches up to the
  next one. -/
  low_bounds : ∀ u ∈ s.visiting, ∀ w ∈ s.stack, s.number u ≤ s.number w →
    (∀ u' ∈ s.visiting, s.number u' ≤ s.number w →
      s.number u' ≤ s.number u) →
    ∀ x ∈ seen w, x ∈ s.stack → s.lowOf u ≤ s.number x

/-- The components closed so far. -/
structure Settled (succ : Nat → List Nat) (s : ComponentSearch) : Prop where
  closed : ∀ v, s.Opened v → v ∉ s.stack →
    ∀ w ∈ succ v, s.Opened w ∧ w ∉ s.stack
  covers : ∀ v, (∃ c ∈ s.components, v ∈ c) ↔ s.Opened v ∧ v ∉ s.stack
  nonempty : ∀ c ∈ s.components, c ≠ []
  nodup : ∀ c ∈ s.components, c.Nodup
  related : ∀ c ∈ s.components, ∀ v ∈ c, ∀ w,
    w ∈ c ↔ Reaches succ v w ∧ Reaches succ w v
  disjoint : s.components.Pairwise List.Disjoint
  /-- A component does not lead to one that was closed later. -/
  ordered : s.components.Pairwise fun later earlier =>
    ∀ v ∈ earlier, ∀ w ∈ later, ¬ Reaches succ v w

/-- Everything that holds between two steps. -/
structure Invariant (n : Nat) (succ : Nat → List Nat) (s : ComponentSearch)
    (seen : Nat → List Nat) : Prop where
  layout : Layout n s
  progress : Progress succ s seen
  linked : Linked succ s seen
  settled : Settled succ s

variable {n : Nat} {succ : Nat → List Nat} {s : ComponentSearch}
  {seen : Nat → List Nat}

/-- What is closed leads to nothing that is still on the stack. -/
theorem Settled.not_reaches (h : Settled succ s) {v w : Nat}
    (hv : s.Opened v) (hvs : v ∉ s.stack) (hw : w ∈ s.stack) :
    ¬ Reaches succ v w := fun hvw =>
  (hvw.keeps (P := fun x => s.Opened x ∧ x ∉ s.stack)
    (fun x hx => h.closed x hx.1 hx.2) ⟨hv, hvs⟩).2 hw

theorem Opened.lt (h : Layout n s) {v : Nat} (hv : s.Opened v) : v < n := by
  by_contra hlt
  have hsize : s.index.size ≤ v := h.index_size ▸ Nat.le_of_not_lt hlt
  simp [Opened, indexOf, Array.getElem?_eq_none hsize] at hv

theorem indexOf_eq_number {v : Nat} (h : s.Opened v) :
    s.indexOf v = some (s.number v) := by
  obtain ⟨i, hi⟩ := Option.isSome_iff_exists.mp h
  simp [number, hi]

theorem Layout.numbers_nodup (h : Layout n s) :
    (s.stack.map s.number).Nodup := by
  rw [List.Nodup, List.pairwise_map]
  exact h.sorted.imp fun hlt => (Nat.ne_of_lt hlt).symm

theorem Layout.stack_nodup (h : Layout n s) : s.stack.Nodup :=
  .of_map _ h.numbers_nodup

theorem Layout.visiting_nodup (h : Layout n s) : s.visiting.Nodup :=
  h.stack_nodup.sublist h.visiting

theorem Layout.mem_stack (h : Layout n s) {u : Nat} (hu : u ∈ s.visiting) :
    u ∈ s.stack := h.visiting.subset hu

theorem Layout.number_inj (h : Layout n s) {v w : Nat} (hv : v ∈ s.stack)
    (hw : w ∈ s.stack) (heq : s.number v = s.number w) : v = w :=
  List.inj_on_of_nodup_map h.numbers_nodup hv hw heq

/-- The node visited last has the greatest number of those visited. -/
theorem Layout.number_le_head (h : Layout n s) {v : Nat} {rest : List Nat}
    {work : List (Nat × List Nat)} (hwork : s.work = (v, rest) :: work)
    {u : Nat} (hu : u ∈ work.map (·.1)) : s.number u < s.number v := by
  have hsorted := h.sorted.sublist h.visiting
  rw [ComponentSearch.visiting, hwork, List.map_cons, List.pairwise_cons] at hsorted
  exact hsorted.1 u hu

theorem visiting_of_work {v : Nat} {rest : List Nat}
    {work : List (Nat × List Nat)} (hwork : s.work = (v, rest) :: work) :
    s.visiting = v :: work.map (·.1) := by
  rw [visiting, hwork, List.map_cons]

theorem Layout.number_le_of_visiting (h : Layout n s) {v : Nat}
    {rest : List Nat} {work : List (Nat × List Nat)}
    (hwork : s.work = (v, rest) :: work) {u : Nat} (hu : u ∈ s.visiting) :
    s.number u ≤ s.number v := by
  rw [visiting_of_work hwork] at hu
  rcases List.mem_cons.mp hu with rfl | hu
  · exact le_rfl
  · exact (h.number_le_head hwork hu).le

/-! ## Opening a node -/

section OpenNode

variable {x : Nat} {ss : List Nat}

theorem indexOf_openNode (h : Layout n s) (hx : x < n) (v : Nat) :
    (s.openNode x ss).indexOf v =
      if v = x then some s.next else s.indexOf v := by
  have hlt : x < s.index.size := h.index_size ▸ hx
  simp only [indexOf, openNode, Array.getElem?_setIfInBounds]
  by_cases hv : x = v
  · subst hv
    simp [hlt]
  · simp [hv, Ne.symm hv]

theorem opened_openNode (h : Layout n s) (hx : x < n) (v : Nat) :
    (s.openNode x ss).Opened v ↔ v = x ∨ s.Opened v := by
  rw [Opened, indexOf_openNode h hx, Opened]
  by_cases hv : v = x <;> simp [hv]

theorem number_openNode (h : Layout n s) (hx : x < n) (v : Nat) :
    (s.openNode x ss).number v = if v = x then s.next else s.number v := by
  rw [number, indexOf_openNode h hx, number]
  split <;> rfl

theorem lowOf_openNode (h : Layout n s) (hx : x < n) (v : Nat) :
    (s.openNode x ss).lowOf v = if v = x then s.next else s.lowOf v := by
  have hlt : x < s.low.size := h.low_size ▸ hx
  simp only [lowOf, openNode, Array.getElem?_setIfInBounds]
  by_cases hv : x = v
  · subst hv
    simp [hlt]
  · simp [hv, Ne.symm hv]

theorem Layout.openNode (h : Layout n s) (hx : x < n)
    (hnew : ¬ s.Opened x) : Layout n (s.openNode x ss) where
  index_size := by simpa [ComponentSearch.openNode] using h.index_size
  low_size := by simpa [ComponentSearch.openNode] using h.low_size
  isOpen_size := by simpa [ComponentSearch.openNode] using h.isOpen_size
  lt_next := by
    intro v hv
    rw [number_openNode h hx]
    show _ < s.next + 1
    split
    · omega
    · rename_i hne
      have := h.lt_next v (((opened_openNode h hx v).mp hv).resolve_left hne)
      omega
  opened := by
    intro v hv
    rw [opened_openNode h hx]
    exact (List.mem_cons.mp hv).imp_right (h.opened v)
  sorted := by
    have hne : ∀ v ∈ s.stack, v ≠ x := fun v hv heq =>
      hnew (heq ▸ h.opened v hv)
    show List.Pairwise _ (x :: s.stack)
    rw [List.pairwise_cons]
    constructor
    · intro v hv
      rw [number_openNode h hx, number_openNode h hx, if_neg (hne v hv),
        if_pos rfl]
      exact h.lt_next v (h.opened v hv)
    · apply h.sorted.imp_of_mem
      intro v w hv hw hlt
      rwa [number_openNode h hx, number_openNode h hx, if_neg (hne v hv),
        if_neg (hne w hw)]
  isOpen := by
    intro v
    have hlt : x < s.isOpen.size := h.isOpen_size ▸ hx
    show (s.isOpen.setIfInBounds x true)[v]?.getD false = true ↔
      v ∈ x :: s.stack
    rw [Array.getElem?_setIfInBounds, List.mem_cons]
    by_cases hv : x = v
    · subst hv
      simp [hlt]
    · simp [hv, Ne.symm hv, h.isOpen v]
  visiting := h.visiting.cons_cons x

theorem Progress.openNode (h : Progress succ s seen) (hl : Layout n s)
    (hx : x < n) (hnew : ¬ s.Opened x) :
    Progress succ (s.openNode x (succ x)) seen where
  visiting := by
    intro v rest hv
    rcases List.mem_cons.mp hv with heq | hv
    · cases heq
      rw [h.unopened x hnew, List.nil_append]
    · exact h.visiting v rest hv
  left := by
    intro v hv hnot
    have hne : v ≠ x := fun heq => hnot (heq ▸ List.mem_cons_self)
    exact h.left v (((opened_openNode hl hx v).mp hv).resolve_left hne)
      fun hmem => hnot (List.mem_cons_of_mem _ hmem)
  unopened := by
    intro v hv
    exact h.unopened v fun hopen =>
      hv ((opened_openNode hl hx v).mpr (.inr hopen))
  opened := by
    intro v w hw
    exact (opened_openNode hl hx w).mpr (.inr (h.opened v w hw))

/-- A node is opened that all visited ones reach. -/
theorem Linked.openNode (h : Linked succ s seen) (hl : Layout n s)
    (hp : Progress succ s seen) (hx : x < n) (hnew : ¬ s.Opened x)
    (hreach : ∀ u ∈ s.visiting, Reaches succ u x) :
    Linked succ (s.openNode x (succ x)) seen := by
  have hne : ∀ v ∈ s.stack, v ≠ x := fun v hv heq =>
    hnew (heq ▸ hl.opened v hv)
  -- The new node is numbered last. All others keep their numbers and low
  -- links.
  have hnum : (s.openNode x (succ x)).number x = s.next := by
    rw [number_openNode hl hx, if_pos rfl]
  have hold : ∀ v ∈ s.stack,
      (s.openNode x (succ x)).number v = s.number v := fun v hv => by
    rw [number_openNode hl hx, if_neg (hne v hv)]
  have hlow : ∀ v ∈ s.stack,
      (s.openNode x (succ x)).lowOf v = s.lowOf v := fun v hv => by
    rw [lowOf_openNode hl hx, if_neg (hne v hv)]
  have hlt : ∀ v ∈ s.stack, s.number v < s.next := fun v hv =>
    hl.lt_next v (hl.opened v hv)
  have hstack : ∀ {u}, u ∈ s.visiting → u ∈ s.stack := hl.mem_stack
  exact
    { up := by
        intro u hu w hw hle
        rcases List.mem_cons.mp hu with rfl | hu
        · rcases List.mem_cons.mp hw with rfl | hw
          · exact .refl
          · rw [hnum, hold w hw] at hle
            exact absurd (hlt w hw) (Nat.not_lt.mpr hle)
        · rcases List.mem_cons.mp hw with hwx | hw
          · exact hwx ▸ hreach u hu
          · rw [hold u (hstack hu), hold w hw] at hle
            exact h.up u hu w hw hle
      down := by
        intro w hw
        rcases List.mem_cons.mp hw with rfl | hw
        · exact ⟨w, List.mem_cons_self, le_rfl, .refl⟩
        · obtain ⟨u, hu, hle, hr⟩ := h.down w hw
          refine ⟨u, List.mem_cons_of_mem _ hu, ?_, hr⟩
          rwa [hold u (hstack hu), hold w hw]
      low_le := by
        intro u hu
        rcases List.mem_cons.mp hu with rfl | hu
        · rw [hnum, lowOf_openNode hl hx, if_pos rfl]
        · rw [hold u (hstack hu), hlow u (hstack hu)]
          exact h.low_le u hu
      low_reached := by
        intro u hu
        rcases List.mem_cons.mp hu with rfl | hu
        · refine ⟨u, List.mem_cons_self, ?_, .refl⟩
          rw [hnum, lowOf_openNode hl hx, if_pos rfl]
        · obtain ⟨w, hw, heq, hr⟩ := h.low_reached u hu
          refine ⟨w, List.mem_cons_of_mem _ hw, ?_, hr⟩
          rwa [hold w hw, hlow u (hstack hu)]
      low_bounds := by
        intro u hu w hw hle howner y hy hstacky
        -- An edge that has been followed already has nothing to do with the
        -- new node.
        have hnexty : y ≠ x := fun heq => hnew (heq ▸ hp.opened w y hy)
        have hystack : y ∈ s.stack :=
          (List.mem_cons.mp hstacky).resolve_left hnexty
        have hwx : w ≠ x := by
          intro heq
          rw [heq, hp.unopened x hnew] at hy
          cases hy
        have hwstack : w ∈ s.stack := (List.mem_cons.mp hw).resolve_left hwx
        rcases List.mem_cons.mp hu with rfl | hu
        · rw [hnum, hold w hwstack] at hle
          exact absurd (hlt w hwstack) (Nat.not_lt.mpr hle)
        · rw [hlow u (hstack hu), hold y hystack]
          rw [hold u (hstack hu), hold w hwstack] at hle
          refine h.low_bounds u hu w hwstack hle ?_ y hy hystack
          intro u' hu' hle'
          have := howner u' (List.mem_cons_of_mem _ hu')
          rw [hold u' (hstack hu'), hold w hwstack, hold u (hstack hu)] at this
          exact this hle' }

theorem Settled.openNode (h : Settled succ s) (hl : Layout n s) (hx : x < n)
    (hnew : ¬ s.Opened x) : Settled succ (s.openNode x (succ x)) where
  closed := by
    intro v hv hnot w hw
    have hne : v ≠ x := fun heq => hnot (heq ▸ List.mem_cons_self)
    obtain ⟨hopen, hstack⟩ := h.closed v
      (((opened_openNode hl hx v).mp hv).resolve_left hne)
      (fun hmem => hnot (List.mem_cons_of_mem _ hmem)) w hw
    refine ⟨(opened_openNode hl hx w).mpr (.inr hopen), ?_⟩
    intro hmem
    -- Closed nodes only lead to opened ones, so not to the new node.
    rcases List.mem_cons.mp hmem with rfl | hmem
    · exact hnew hopen
    · exact hstack hmem
  covers := by
    intro v
    rw [opened_openNode hl hx]
    show (∃ c ∈ s.components, v ∈ c) ↔ _ ∧ v ∉ x :: s.stack
    rw [h.covers v, List.mem_cons]
    by_cases hv : v = x
    · subst hv
      simp [hnew]
    · simp [hv]
  nonempty := h.nonempty
  nodup := h.nodup
  related := h.related
  disjoint := h.disjoint
  ordered := h.ordered

theorem Invariant.openNode (h : Invariant n succ s seen) (hx : x < n)
    (hnew : ¬ s.Opened x) (hreach : ∀ u ∈ s.visiting, Reaches succ u x) :
    Invariant n succ (s.openNode x (succ x)) seen where
  layout := h.layout.openNode hx hnew
  progress := h.progress.openNode h.layout hx hnew
  linked := h.linked.openNode h.layout h.progress hx hnew hreach
  settled := h.settled.openNode h.layout hx hnew

end OpenNode

/-! ## Looking at a successor -/

section Advance

variable {v x : Nat} {pre post : List (Nat × List Nat)} {rest : List Nat}
  (hwork : s.work = pre ++ (v, x :: rest) :: post)

include hwork

theorem visiting_advance :
    ({ s with work := pre ++ (v, rest) :: post } : ComponentSearch).visiting =
      s.visiting := by
  simp [visiting, hwork]

theorem mem_visiting_of_work : v ∈ s.visiting := by simp [visiting, hwork]

/-- A node has a single frame, so the others belong to other nodes. -/
theorem Layout.ne_of_mem_frames (h : Layout n s) {u : Nat} {r : List Nat}
    (hu : (u, r) ∈ pre ++ post) : u ≠ v := by
  intro heq
  have hnodup := h.visiting_nodup
  rw [ComponentSearch.visiting, hwork, List.map_append, List.map_cons]
    at hnodup
  have hperm := List.perm_middle.nodup_iff.mp hnodup
  rw [List.nodup_cons, ← List.map_append] at hperm
  exact hperm.1 (heq ▸ List.mem_map_of_mem (f := (·.1)) hu)

theorem Progress.advance (h : Progress succ s seen) (hl : Layout n s)
    (hopen : s.Opened x) :
    Progress succ { s with work := pre ++ (v, rest) :: post }
      (Function.update seen v (seen v ++ [x])) where
  visiting := by
    intro u r hu
    -- Only the frame of `v` has changed.
    have hmem : (u, r) = (v, rest) ∨ (u, r) ∈ pre ++ post := by
      rcases List.mem_append.mp hu with hu | hu
      · exact .inr (List.mem_append_left _ hu)
      · exact (List.mem_cons.mp hu).imp_right (List.mem_append_right _)
    rcases hmem with heq | hmem
    · cases heq
      rw [Function.update_self, h.visiting v (x :: rest) (by simp [hwork]),
        List.append_assoc, List.singleton_append]
    · rw [Function.update_of_ne (hl.ne_of_mem_frames hwork hmem)]
      apply h.visiting
      rw [hwork]
      rcases List.mem_append.mp hmem with hmem | hmem
      · exact List.mem_append_left _ hmem
      · exact List.mem_append_right _ (List.mem_cons_of_mem _ hmem)
  left := by
    intro u hu hnot
    rw [visiting_advance hwork] at hnot
    have hne : u ≠ v := fun heq => hnot (heq ▸ mem_visiting_of_work hwork)
    rw [Function.update_of_ne hne]
    exact h.left u hu hnot
  unopened := by
    intro u hu
    have hne : u ≠ v := fun heq =>
      hu (heq ▸ hl.opened v (hl.mem_stack (mem_visiting_of_work hwork)))
    rw [Function.update_of_ne hne]
    exact h.unopened u hu
  opened := by
    intro u w hw
    by_cases hu : u = v
    · rw [hu, Function.update_self] at hw
      rcases List.mem_append.mp hw with hw | hw
      · exact h.opened v w hw
      · rw [List.mem_singleton.mp hw]
        exact hopen
    · rw [Function.update_of_ne hu] at hw
      exact h.opened u w hw

theorem Linked.advance (h : Linked succ s seen) (hl : Layout n s)
    (hlow : x ∈ s.stack → s.lowOf v ≤ s.number x) :
    Linked succ { s with work := pre ++ (v, rest) :: post }
      (Function.update seen v (seen v ++ [x])) := by
  have hvisiting := visiting_advance hwork
  refine ⟨hvisiting ▸ h.up, hvisiting ▸ h.down, hvisiting ▸ h.low_le,
    hvisiting ▸ h.low_reached, ?_⟩
  rw [hvisiting]
  intro u hu w hw hle howner y hy hystack
  have hold : y ∈ seen w → s.lowOf u ≤ s.number y := fun hy =>
    h.low_bounds u hu w hw hle howner y hy hystack
  by_cases hwv : w = v
  · subst hwv
    rw [Function.update_self] at hy
    rcases List.mem_append.mp hy with hy | hy
    · exact hold hy
    · -- A visited node belongs to itself.
      have huw : u = w := hl.number_inj (hl.mem_stack hu) hw
        (Nat.le_antisymm hle
          (howner w (mem_visiting_of_work hwork) le_rfl))
      rw [List.mem_singleton] at hy
      subst hy huw
      exact hlow hystack
  · rw [Function.update_of_ne hwv] at hy
    exact hold hy

end Advance

/-- A visited node is done with a successor that was opened and, if that is
on the stack, is not lower than the low number of the node. -/
theorem Invariant.advance (h : Invariant n succ s seen) {v x : Nat}
    (pre : List (Nat × List Nat)) (rest : List Nat)
    (post : List (Nat × List Nat))
    (hwork : s.work = pre ++ (v, x :: rest) :: post) (hopen : s.Opened x)
    (hlow : x ∈ s.stack → s.lowOf v ≤ s.number x) :
    Invariant n succ { s with work := pre ++ (v, rest) :: post }
      (Function.update seen v (seen v ++ [x])) where
  layout :=
    { h.layout with
      visiting := (visiting_advance hwork).symm ▸ h.layout.visiting }
  progress := h.progress.advance hwork h.layout hopen
  linked := h.linked.advance hwork h.layout hlow
  settled := { h.settled with }

theorem lowOf_lower (h : Layout n s) {u : Nat} (hu : u < n) (i v : Nat) :
    (s.lower u i).lowOf v =
      if v = u then min (s.lowOf u) i else s.lowOf v := by
  have hlt : u < s.low.size := h.low_size ▸ hu
  simp only [lowOf, lower, Array.getElem?_modify]
  by_cases hv : u = v
  · subst hv
    simp [hlt]
  · simp [hv, Ne.symm hv]

/-- A visited node may be lowered to a number it reaches. -/
theorem Invariant.lower (h : Invariant n succ s seen) {u i : Nat}
    (hu : u ∈ s.visiting)
    (hi : ∃ w ∈ s.stack, s.number w = i ∧ Reaches succ u w) :
    Invariant n succ (s.lower u i) seen := by
  have hstack := h.layout.mem_stack hu
  have hlow := lowOf_lower h.layout
    (Opened.lt h.layout (h.layout.opened u hstack)) i
  -- Low links only get smaller, so they stay below what they were below.
  have hle : ∀ v, (s.lower u i).lowOf v ≤ s.lowOf v := by
    intro v
    rw [hlow]
    split
    · rename_i hv
      rw [hv]
      exact min_le_left _ _
    · exact le_rfl
  refine ⟨?_, ?_, ?_, ?_⟩
  · have hl := h.layout
    exact ⟨hl.index_size, by simpa [ComponentSearch.lower] using hl.low_size,
      hl.isOpen_size, hl.lt_next, hl.opened, hl.sorted, hl.isOpen,
      hl.visiting⟩
  · have hp := h.progress
    exact ⟨hp.visiting, hp.left, hp.unopened, hp.opened⟩
  · have hl := h.linked
    refine ⟨hl.up, hl.down, fun v hv => (hle v).trans (hl.low_le v hv),
      ?_, ?_⟩
    · intro v hv
      rw [hlow]
      split
      · rename_i hvu
        subst hvu
        rcases min_choice (s.lowOf v) i with hmin | hmin
        · rw [hmin]
          exact hl.low_reached v hv
        · rw [hmin]
          exact hi
      · exact hl.low_reached v hv
    · intro v hv w hw hvw howner y hy hystack
      exact (hle v).trans
        (hl.low_bounds v hv w hw hvw howner y hy hystack)
  · have hs := h.settled
    exact ⟨hs.closed, hs.covers, hs.nonempty, hs.nodup, hs.related,
      hs.disjoint, hs.ordered⟩

/-! ## Leaving a node -/

section Leave

variable {v : Nat} {work : List (Nat × List Nat)}

/-- A node without further successors has been looked at completely. -/
theorem Progress.leave (h : Progress succ s seen)
    (hwork : s.work = (v, []) :: work) {s' : ComponentSearch}
    (hindex : s'.index = s.index) (hwork' : s'.work = work) :
    Progress succ s' seen := by
  have hopened : ∀ w, s'.Opened w ↔ s.Opened w := by
    intro w
    rw [Opened, Opened, indexOf, indexOf, hindex]
  refine ⟨?_, ?_, ?_, ?_⟩
  · intro u rest hu
    rw [hwork'] at hu
    exact h.visiting u rest (hwork ▸ List.mem_cons_of_mem _ hu)
  · intro u hu hnot
    by_cases huv : u = v
    · have hframe := h.visiting v [] (hwork ▸ List.mem_cons_self)
      rw [huv, hframe, List.append_nil]
    · apply h.left u ((hopened u).mp hu)
      rw [ComponentSearch.visiting, hwork, List.map_cons, List.mem_cons]
      rintro (heq | hmem)
      · exact huv heq
      · exact hnot (by rwa [ComponentSearch.visiting, hwork'])
  · intro u hu
    exact h.unopened u fun hopen => hu ((hopened u).mpr hopen)
  · intro u w hw
    exact (hopened w).mpr (h.opened u w hw)

/-- Of the nodes still being visited, the latest one owns what the node that
is left has owned. -/
theorem Layout.eq_head_of_owner (h : Layout n s)
    (hwork : s.work = (v, []) :: work) {w p : Nat}
    (hvw : s.number v ≤ s.number w) (hp : p ∈ work.map (·.1))
    (howner : ∀ u ∈ work.map (·.1), s.number u ≤ s.number w →
      s.number u ≤ s.number p) : ∃ rest tail, work = (p, rest) :: tail := by
  cases hworkp : work with
  | nil => simp [hworkp] at hp
  | cons frame tail =>
    obtain ⟨q, rest⟩ := frame
    have hq : q ∈ work.map (·.1) := by simp [hworkp]
    have hle : s.number q ≤ s.number p :=
      howner q hq ((h.number_le_head hwork hq).le.trans hvw)
    rw [hworkp, List.map_cons] at hp
    rcases List.mem_cons.mp hp with rfl | hp
    · exact ⟨rest, tail, rfl⟩
    · have hsorted := h.sorted.sublist h.visiting
      rw [ComponentSearch.visiting, hwork, hworkp, List.map_cons,
        List.map_cons, List.pairwise_cons, List.pairwise_cons] at hsorted
      exact absurd (hsorted.2.1 p hp) (Nat.not_lt.mpr hle)

theorem Linked.pass (h : Linked succ s seen) (hl : Layout n s)
    (hwork : s.work = (v, []) :: work) (hlow : s.lowOf v < s.number v)
    (hparent : ∀ p rest tail, work = (p, rest) :: tail →
      s.lowOf p ≤ s.lowOf v) :
    Linked succ { s with work } seen := by
  have hvisiting := visiting_of_work hwork
  have hv : v ∈ s.visiting := by simp [hvisiting]
  have hsub : ∀ u ∈ work.map (·.1), u ∈ s.visiting := fun u hu =>
    hvisiting ▸ List.mem_cons_of_mem _ hu
  have hcases : ∀ u ∈ s.visiting, u = v ∨ u ∈ work.map (·.1) := fun u hu =>
    List.mem_cons.mp (hvisiting ▸ hu)
  refine ⟨fun u hu => h.up u (hsub u hu), ?_,
    fun u hu => h.low_le u (hsub u hu),
    fun u hu => h.low_reached u (hsub u hu), ?_⟩
  · -- The node itself gets down through what it reaches.
    obtain ⟨x, hx, hxlow, hvx⟩ := h.low_reached v hv
    obtain ⟨u, hu, hux, hxu⟩ := h.down x hx
    have hune : u ≠ v := by
      rintro rfl
      omega
    intro w hw
    obtain ⟨p, hp, hpw, hwp⟩ := h.down w hw
    rcases hcases p hp with rfl | hp
    · refine ⟨u, (hcases u hu).resolve_left hune, ?_,
        hwp.trans (hvx.trans hxu)⟩
      show s.number u ≤ s.number w
      omega
    · exact ⟨p, hp, hpw, hwp⟩
  · intro p hp w hw hpw howner y hy hystack
    by_cases hold : s.number v ≤ s.number w
    · -- The part of the node goes to the one visited before.
      obtain ⟨rest, tail, hworkp⟩ :=
        hl.eq_head_of_owner hwork hold hp howner
      exact (hparent p rest tail hworkp).trans
        (h.low_bounds v hv w hw hold
          (fun u hu _ => hl.number_le_of_visiting hwork hu) y hy hystack)
    · refine h.low_bounds p (hsub p hp) w hw hpw ?_ y hy hystack
      intro u hu huw
      rcases hcases u hu with rfl | hu
      · exact absurd huw hold
      · exact howner u hu huw

/-- A node that reaches something lower leaves its part of the stack to the
node visited before. -/
theorem Invariant.pass (h : Invariant n succ s seen)
    (hwork : s.work = (v, []) :: work) (hlow : s.lowOf v < s.number v)
    (hparent : ∀ p rest tail, work = (p, rest) :: tail →
      s.lowOf p ≤ s.lowOf v) :
    Invariant n succ { s with work } seen where
  layout :=
    { h.layout with
      visiting := by
        have hvisiting := h.layout.visiting
        rw [visiting_of_work hwork] at hvisiting
        exact (List.sublist_cons_self _ _).trans hvisiting }
  progress := h.progress.leave hwork rfl rfl
  linked := h.linked.pass h.layout hwork hlow hparent
  settled := { h.settled with }

theorem size_foldl_setIfInBounds (c : List Nat) (xs : Array Bool) :
    (c.foldl (·.setIfInBounds · false) xs).size = xs.size := by
  induction c generalizing xs with
  | nil => rfl
  | cons x c ih => rw [List.foldl_cons, ih, Array.size_setIfInBounds]

theorem getD_foldl_setIfInBounds (c : List Nat) (xs : Array Bool) (w : Nat) :
    (c.foldl (·.setIfInBounds · false) xs)[w]?.getD false = true ↔
      xs[w]?.getD false = true ∧ w ∉ c := by
  induction c generalizing xs with
  | nil => simp
  | cons x c ih =>
    rw [List.foldl_cons, ih, Array.getElem?_setIfInBounds]
    by_cases hx : x = w
    · subst hx
      by_cases hlt : x < xs.size <;> simp [hlt]
    · simp [hx, Ne.symm hx]

theorem sublist_of_cons_sublist {l above below : List Nat}
    (h : (v :: l).Sublist (above ++ v :: below)) (hv : v ∉ above) :
    l.Sublist below := by
  induction above with
  | nil => exact List.cons_sublist_cons.mp h
  | cons a above ih =>
    rw [List.mem_cons, not_or] at hv
    rw [List.cons_append, List.cons_sublist_cons'] at h
    exact ih (h.resolve_right fun heq => hv.1 heq.1) hv.2

/-- Closing cuts the stack behind the node. -/
theorem closeComponent_eq {above below : List Nat} (hv : v ∉ above)
    (hstack : s.stack = above ++ v :: below) :
    s.closeComponent v = { s with
      isOpen := (above ++ [v]).foldl (·.setIfInBounds · false) s.isOpen
      stack := below
      components := (above ++ [v]) :: s.components } := by
  have htake : (above ++ v :: below).takeWhile (· ≠ v) = above := by
    rw [List.takeWhile_append_of_pos, List.takeWhile_cons_of_neg,
      List.append_nil]
    · simp
    · intro a ha
      have hne : a ≠ v := by
        rintro rfl
        exact hv ha
      simpa using hne
  have hdrop : (above ++ v :: below).dropWhile (· ≠ v) = v :: below := by
    rw [List.dropWhile_append_of_pos, List.dropWhile_cons_of_neg]
    · simp
    · intro a ha
      have hne : a ≠ v := by
        rintro rfl
        exact hv ha
      simpa using hne
  simp only [closeComponent, List.span_eq_takeWhile_dropWhile, hstack,
    htake, hdrop]
  rfl

/-- What lies above a node that reaches nothing lower is its component. -/
structure Part (succ : Nat → List Nat) (s : ComponentSearch) (v : Nat)
    (above below : List Nat) : Prop where
  stack : s.stack = above ++ v :: below
  not_mem : v ∉ above
  mem : ∀ w ∈ s.stack, w ∈ above ++ [v] ↔ s.number v ≤ s.number w
  not_below : ∀ w ∈ above ++ [v], w ∉ below
  /-- No edge leads down from the part. -/
  closed : ∀ w, s.Opened w → w ∉ below →
    ∀ x ∈ succ w, s.Opened x ∧ x ∉ below
  related : ∀ w ∈ above ++ [v], Reaches succ v w ∧ Reaches succ w v

/-! ### The part above a node -/

/-- The stack is cut behind a node. -/
structure Cut (s : ComponentSearch) (v : Nat) (above below : List Nat) :
    Prop where
  stack : s.stack = above ++ v :: below
  not_mem : v ∉ above
  mem : ∀ w ∈ s.stack, w ∈ above ++ [v] ↔ s.number v ≤ s.number w
  not_below : ∀ w ∈ above ++ [v], w ∉ below

theorem Layout.exists_cut (h : Layout n s) (hv : v ∈ s.stack) :
    ∃ above below, Cut s v above below := by
  obtain ⟨above, below, hstack⟩ := List.append_of_mem hv
  have hsorted := h.sorted
  rw [hstack, List.pairwise_append, List.pairwise_cons] at hsorted
  have habove : ∀ w ∈ above, s.number v < s.number w := fun w hw =>
    hsorted.2.2 w hw v List.mem_cons_self
  have hbelow : ∀ w ∈ below, s.number w < s.number v := hsorted.2.1.1
  have hle : ∀ w ∈ above ++ [v], s.number v ≤ s.number w := by
    intro w hw
    rcases List.mem_append.mp hw with hw | hw
    · exact (habove w hw).le
    · rw [List.mem_singleton.mp hw]
  refine ⟨above, below, hstack,
    fun hv => Nat.lt_irrefl _ (habove v hv),
    fun w hw => ⟨hle w, fun hvw => ?_⟩,
    fun w hw hwb => absurd (hbelow w hwb) (Nat.not_lt.mpr (hle w hw))⟩
  rw [hstack, List.mem_append, List.mem_cons] at hw
  rcases hw with hw | hw | hw
  · exact List.mem_append_left _ hw
  · simp [hw]
  · exact absurd (hbelow w hw) (Nat.not_lt.mpr hvw)

namespace Cut

variable {above below : List Nat} (hc : Cut s v above below) {w : Nat}

include hc

theorem mem_stack : w ∈ s.stack ↔ w ∈ above ++ [v] ∨ w ∈ below := by
  simp [hc.stack, or_assoc]

theorem stack_of_part (hw : w ∈ above ++ [v]) : w ∈ s.stack :=
  hc.mem_stack.mpr (.inl hw)

theorem stack_of_below (hw : w ∈ below) : w ∈ s.stack :=
  hc.mem_stack.mpr (.inr hw)

theorem mem_below (hw : w ∈ s.stack) :
    w ∈ below ↔ s.number w < s.number v := by
  rw [← Nat.not_le, ← hc.mem w hw]
  exact ⟨fun hwb hpart => hc.not_below w hpart hwb, fun hpart =>
    (hc.mem_stack.mp hw).resolve_left hpart⟩

theorem lt_of_mem_below (hw : w ∈ below) : s.number w < s.number v :=
  (hc.mem_below (hc.stack_of_below hw)).mp hw

theorem mem_part (hw : w ∈ s.stack) (hwb : w ∉ below) : w ∈ above ++ [v] :=
  (hc.mem_stack.mp hw).resolve_right hwb

end Cut

section Part

variable {above below : List Nat} (h : Invariant n succ s seen)
  (hwork : s.work = (v, []) :: work) (hc : Cut s v above below)

include h hwork hc

/-- All successors of the part were looked at. -/
theorem Invariant.seen_of_part {w : Nat} (hw : w ∈ above ++ [v]) :
    seen w = succ w := by
  have hws := hc.stack_of_part hw
  have hv : v ∈ s.visiting := by simp [visiting_of_work hwork]
  by_cases hwv : w = v
  · have hframe := h.progress.visiting v [] (hwork ▸ List.mem_cons_self)
    rw [hwv, hframe, List.append_nil]
  · apply h.progress.left w (h.layout.opened w hws)
    intro hvis
    exact hwv (h.layout.number_inj hws (h.layout.mem_stack hv)
      (Nat.le_antisymm (h.layout.number_le_of_visiting hwork hvis)
        ((hc.mem w hws).mp hw)))

/-- No edge leads down from the part of a node that reaches nothing lower. -/
theorem Invariant.closed_of_part (hlow : s.lowOf v = s.number v) {w : Nat}
    (hw : s.Opened w) (hwb : w ∉ below) :
    ∀ x ∈ succ w, s.Opened x ∧ x ∉ below := by
  intro x hx
  have hv : v ∈ s.visiting := by simp [visiting_of_work hwork]
  by_cases hws : w ∈ s.stack
  · have hpart := hc.mem_part hws hwb
    rw [← h.seen_of_part hwork hc hpart] at hx
    refine ⟨h.progress.opened w x hx, fun hxb => ?_⟩
    have hle := h.linked.low_bounds v hv w hws ((hc.mem w hws).mp hpart)
      (fun u hu _ => h.layout.number_le_of_visiting hwork hu) x hx
      (hc.stack_of_below hxb)
    rw [hlow] at hle
    exact absurd (hc.lt_of_mem_below hxb) (Nat.not_lt.mpr hle)
  · obtain ⟨hopen, hxs⟩ := h.settled.closed w hw hws x hx
    exact ⟨hopen, fun hxb => hxs (hc.stack_of_below hxb)⟩

theorem Invariant.related_of_part (hlow : s.lowOf v = s.number v) {w : Nat}
    (hw : w ∈ above ++ [v]) : Reaches succ v w ∧ Reaches succ w v := by
  have hws := hc.stack_of_part hw
  have hv : v ∈ s.visiting := by simp [visiting_of_work hwork]
  refine ⟨h.linked.up v hv w hws ((hc.mem w hws).mp hw), ?_⟩
  -- The way down from the part ends at the node itself.
  obtain ⟨u, hu, -, hwu⟩ := h.linked.down w hws
  have hkept : s.Opened u ∧ u ∉ below :=
    hwu.keeps (P := fun x => s.Opened x ∧ x ∉ below)
      (fun x hx => h.closed_of_part hwork hc hlow hx.1 hx.2)
      ⟨h.layout.opened w hws, hc.not_below w hw⟩
  have hus := h.layout.mem_stack hu
  have huv : u = v := h.layout.number_inj hus (h.layout.mem_stack hv)
    (Nat.le_antisymm (h.layout.number_le_of_visiting hwork hu)
      ((hc.mem u hus).mp (hc.mem_part hus hkept.2)))
  exact huv ▸ hwu

omit hc in
theorem Invariant.exists_part (hlow : s.lowOf v = s.number v) :
    ∃ above below, Part succ s v above below := by
  have hv : v ∈ s.visiting := by simp [visiting_of_work hwork]
  obtain ⟨above, below, hc⟩ := h.layout.exists_cut (h.layout.mem_stack hv)
  exact ⟨above, below, hc.stack, hc.not_mem, hc.mem, hc.not_below,
    fun _ hw hwb => h.closed_of_part hwork hc hlow hw hwb,
    fun _ hw => h.related_of_part hwork hc hlow hw⟩

end Part

/-! ### Closing the part -/

section Close

variable {above below : List Nat} (hp : Part succ s v above below)

include hp

theorem Part.cut : Cut s v above below :=
  ⟨hp.stack, hp.not_mem, hp.mem, hp.not_below⟩

theorem Part.closeComponent_eq :
    { s with work }.closeComponent v = { s with
      isOpen := (above ++ [v]).foldl (·.setIfInBounds · false) s.isOpen
      stack := below
      work
      components := (above ++ [v]) :: s.components } :=
  ComponentSearch.closeComponent_eq (s := { s with work }) hp.not_mem hp.stack

theorem Layout.close (h : Layout n s) (hwork : s.work = (v, []) :: work) :
    Layout n ({ s with work }.closeComponent v) := by
  rw [hp.closeComponent_eq]
  have hsub := h.visiting
  rw [visiting_of_work hwork, hp.stack] at hsub
  have hsorted := h.sorted
  rw [hp.stack, List.pairwise_append, List.pairwise_cons] at hsorted
  refine ⟨h.index_size, h.low_size, ?_, h.lt_next,
    fun w hw => h.opened w (hp.cut.stack_of_below hw), hsorted.2.1.2,
    fun w => ?_, sublist_of_cons_sublist hsub hp.not_mem⟩
  · rw [size_foldl_setIfInBounds]
    exact h.isOpen_size
  · rw [getD_foldl_setIfInBounds, h.isOpen]
    exact ⟨fun ⟨hw, hnot⟩ => (hp.cut.mem_stack.mp hw).resolve_left hnot,
      fun hw => ⟨hp.cut.stack_of_below hw, fun hpart =>
        hp.not_below w hpart hw⟩⟩

theorem Linked.close (h : Linked succ s seen) (hl : Layout n s)
    (hwork : s.work = (v, []) :: work) :
    Linked succ ({ s with work }.closeComponent v) seen := by
  rw [hp.closeComponent_eq]
  have hvisiting := visiting_of_work hwork
  have hvis : ∀ u ∈ work.map (·.1), u ∈ s.visiting := fun u hu =>
    hvisiting ▸ List.mem_cons_of_mem _ hu
  -- The nodes visited before the closed one are still visited, and they number
  -- less than what has left the stack.
  have hstays : ∀ u ∈ s.visiting, s.number u < s.number v →
      u ∈ work.map (·.1) := by
    intro u hu hlt
    rw [hvisiting] at hu
    rcases List.mem_cons.mp hu with rfl | hu
    · exact absurd hlt (Nat.lt_irrefl _)
    · exact hu
  refine ⟨fun u hu w hw => h.up u (hvis u hu) w (hp.cut.stack_of_below hw),
    ?_, fun u hu => h.low_le u (hvis u hu), ?_, ?_⟩
  · intro w hw
    obtain ⟨u, hu, huw, hr⟩ := h.down w (hp.cut.stack_of_below hw)
    exact ⟨u, hstays u hu (huw.trans_lt (hp.cut.lt_of_mem_below hw)), huw, hr⟩
  · intro u hu
    obtain ⟨w, hw, hwu, hr⟩ := h.low_reached u (hvis u hu)
    refine ⟨w, (hp.cut.mem_below hw).mpr ?_, hwu, hr⟩
    exact hwu.trans_lt
      ((h.low_le u (hvis u hu)).trans_lt (hl.number_le_head hwork hu))
  · intro u hu w hw huw howner x hx hxb
    refine h.low_bounds u (hvis u hu) w (hp.cut.stack_of_below hw) huw ?_ x hx
      (hp.cut.stack_of_below hxb)
    intro u' hu' hle
    exact howner u'
      (hstays u' hu' (hle.trans_lt (hp.cut.lt_of_mem_below hw))) hle

/-- The part is a class: what it reaches and what reaches it is in it. -/
theorem Part.mem_iff_reaches (h : Settled succ s) (hl : Layout n s)
    {w : Nat} (hw : w ∈ above ++ [v]) (y : Nat) :
    y ∈ above ++ [v] ↔ Reaches succ w y ∧ Reaches succ y w := by
  have hws := hp.cut.stack_of_part hw
  constructor
  · intro hy
    obtain ⟨hvw, hwv⟩ := hp.related w hw
    obtain ⟨hvy, hyv⟩ := hp.related y hy
    exact ⟨hwv.trans hvy, hyv.trans hvw⟩
  · rintro ⟨hwy, hyw⟩
    have hy : s.Opened y ∧ y ∉ below :=
      hwy.keeps (P := fun x => s.Opened x ∧ x ∉ below)
        (fun x hx => hp.closed x hx.1 hx.2)
        ⟨hl.opened w hws, hp.not_below w hw⟩
    refine hp.cut.mem_part ?_ hy.2
    by_contra hys
    exact h.not_reaches hy.1 hys hws hyw

theorem Settled.close (h : Settled succ s) (hl : Layout n s)
    (work : List (Nat × List Nat)) :
    Settled succ ({ s with work }.closeComponent v) := by
  rw [hp.closeComponent_eq]
  refine ⟨hp.closed, fun w => ?_, fun c hc => ?_, fun c hc => ?_,
    fun c hc => ?_, List.pairwise_cons.mpr ⟨fun c hc w hw hwc => ?_,
      h.disjoint⟩, List.pairwise_cons.mpr ⟨fun c hc u hu w hw huw => ?_,
      h.ordered⟩⟩
  · show (∃ c ∈ (above ++ [v]) :: s.components, w ∈ c) ↔
      s.Opened w ∧ w ∉ below
    rw [List.exists_mem_cons_iff, h.covers]
    constructor
    · rintro (hw | ⟨hopen, hnot⟩)
      · exact ⟨hl.opened w (hp.cut.stack_of_part hw), hp.not_below w hw⟩
      · exact ⟨hopen, fun hw => hnot (hp.cut.stack_of_below hw)⟩
    · rintro ⟨hopen, hnot⟩
      -- What has left the stack is in the new component, or was in one before.
      by_cases hw : w ∈ s.stack
      · exact .inl (hp.cut.mem_part hw hnot)
      · exact .inr ⟨hopen, hw⟩
  · rcases List.mem_cons.mp hc with rfl | hc
    · simp
    · exact h.nonempty c hc
  · rcases List.mem_cons.mp hc with rfl | hc
    · have hnodup := hl.stack_nodup
      rw [hp.stack] at hnodup
      exact hnodup.sublist ((List.Sublist.refl above).append
        (List.singleton_sublist.mpr List.mem_cons_self))
    · exact h.nodup c hc
  · rcases List.mem_cons.mp hc with rfl | hc
    · exact fun w hw => hp.mem_iff_reaches h hl hw
    · exact h.related c hc
  · exact ((h.covers w).mp ⟨c, hc, hwc⟩).2 (hp.cut.stack_of_part hw)
  · obtain ⟨hopen, hnot⟩ := (h.covers u).mp ⟨c, hc, hu⟩
    exact h.not_reaches hopen hnot (hp.cut.stack_of_part hw) huw

end Close

/-- Closing the component of a node that reaches nothing lower. -/
theorem Invariant.close (h : Invariant n succ s seen)
    (hwork : s.work = (v, []) :: work) (hlow : s.lowOf v = s.number v) :
    Invariant n succ ({ s with work }.closeComponent v) seen := by
  obtain ⟨above, below, hp⟩ := h.exists_part hwork hlow
  have heq : { s with work }.closeComponent v = _ := hp.closeComponent_eq
  exact
    { layout := h.layout.close hp hwork
      progress := h.progress.leave hwork (by rw [heq]) (by rw [heq])
      linked := h.linked.close hp h.layout hwork
      settled := h.settled.close hp h.layout work }

end Leave

end ComponentSearch

end ControlPlane
