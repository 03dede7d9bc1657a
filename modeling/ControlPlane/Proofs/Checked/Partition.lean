import Mathlib
import ControlPlane.Proofs.Checked.Search
import ControlPlane.Proofs.Region.Partition

/-!
# Partitioning looks up nothing that is not there

Roots and classes of members are members and classes, so every table of the
partition has an entry for them. It suffices that the dependencies are
between members.
-/

namespace ControlPlane

namespace Checked

open Region (Grouping InRange)

/-! ## The checked partition -/

/-- Climbs from an element towards its root, two steps at a time. -/
def climb : Nat → DisjointSet → Nat → Except Stop (Nat × DisjointSet)
  | 0, s, x => do
    if (← reach s.parent[x]?) = x then return (x, s) else throw .unfinished
  | fuel + 1, s, x => do
    let parent ← reach s.parent[x]?
    if parent = x then return (x, s)
    else
      let grandparent ← reach s.parent[parent]?
      climb fuel (s.setParent x grandparent) grandparent

/-- The root of an element. -/
def find (s : DisjointSet) (x : Nat) : Except Stop (Nat × DisjointSet) :=
  climb s.size s x

/-- Joins the trees of two roots. -/
def link (s : DisjointSet) (a b : Nat) : Except Stop DisjointSet := do
  let _ ← reach s.rank[a]?
  let _ ← reach s.rank[b]?
  let _ ← reach s.parent[a]?
  let _ ← reach s.parent[b]?
  return s.link a b

/-- Joins the sets of two elements. -/
def union (s : DisjointSet) (a b : Nat) : Except Stop DisjointSet := do
  let (rootA, s) ← find s a
  let (rootB, s) ← find s b
  link s rootA rootB

/-- The members below `n`, joined along the pipelined dependencies. -/
def joinPipelined (n : Nat) (deps : List Dependency) :
    Except Stop DisjointSet :=
  (deps.filter (·.pipelined)).foldlM
    (fun s dep => union s dep.producer dep.consumer)
    (DisjointSet.singletons n)

/-- Puts the next member into the class of its root. -/
def add (g : Grouping) (member : Nat) : Except Stop Grouping := do
  let (root, _) ← find g.sets member
  match g.byRoot[root]? with
  | some c => discard (reach g.classes[c]?)
  | none => pure ()
  return g.add member

/-- The classes of the members below `n`. -/
def grouping (n : Nat) (sets : DisjointSet) : Except Stop Grouping :=
  (List.range n).foldlM add { sets }

/-- Adds what one dependency says of the classes. -/
def addSuccessor (g : Grouping) (succ : Array (List Nat))
    (dep : Dependency) : Except Stop (Array (List Nat)) := do
  let source ← reach g.classOf[dep.producer]?
  let target ← reach g.classOf[dep.consumer]?
  if source = target then return succ
  else
    let _ ← reach succ[source]?
    return succ.modify source fun targets =>
      if target ∈ targets then targets else targets ++ [target]

/-- For every class, the other classes that depend on it, each once. -/
def successors (g : Grouping) (deps : List Dependency) :
    Except Stop (Array (List Nat)) :=
  deps.foldlM (addSuccessor g) (Array.replicate g.classes.size [])

/-- The members of the classes of a component. A component is sorted by its
first member. -/
def component (classes : Array (List Nat)) (component : List Nat) :
    Except Stop (List Nat) := do
  let members := ascending (← collect component fun c => reach classes[c]?)
  let _ ← reach members.head?
  return members

/-- The regions of the members below `n`. -/
def partition (n : Nat) (deps : List Dependency) :
    Except Stop (List (List Nat)) := do
  let g ← grouping n (← joinPipelined n deps)
  let classes := g.members
  let succ ← successors g deps
  let components ← stronglyConnected classes.size succ
  if components.length = classes.size then return classes.toList
  else return ascending (← components.mapM (component classes))

/-! ## Roots -/

open DisjointSet

section Roots

variable {s : DisjointSet} (h : s.Forest)

theorem reach_parent {x : Nat} (hx : x < s.size) :
    reach s.parent[x]? = .ok (s.parentOf x) := by
  have hlt : x < s.parent.size := hx
  simp [parentOf, hlt]

include h

theorem climb_eq_ok {height : Nat → Nat} {fuel x : Nat}
    (hheight : ∀ x, s.parentOf x ≠ x → height (s.parentOf x) < height x)
    (hfuel : height x ≤ fuel) (hx : x < s.size) :
    climb fuel s x = .ok (s.climb fuel x) := by
  induction fuel generalizing s x with
  | zero =>
    have hroot : s.parentOf x = x := by
      by_contra hne
      have := hheight x hne
      omega
    simp [climb, DisjointSet.climb, reach_parent hx, hroot]
  | succ fuel ih =>
    unfold climb DisjointSet.climb
    rw [reach_parent hx, ok_bind]
    by_cases hroot : s.parentOf x = x
    · simp [hroot]
    rw [if_neg hroot, if_neg hroot, reach_parent (h.bound x hx), ok_bind]
    have hparent := parentOf_setParent
      (y := s.parentOf (s.parentOf x)) (lt_of_parentOf_ne hroot)
    have hlower := height_grandparent hheight hroot
    refine ih (h.halve hroot).1 ?_ (by omega)
      (by simpa using h.bound _ (h.bound x hx))
    -- Halving the path leaves the heights as they were.
    intro z hz
    rw [hparent] at hz ⊢
    split
    · rename_i hzx
      rw [hzx]
      exact hlower
    · rename_i hzx
      rw [if_neg hzx] at hz
      exact hheight z hz

theorem find_eq_ok {x : Nat} (hx : x < s.size) :
    find s x = .ok (s.find x) := by
  obtain ⟨height, hbound, hheight⟩ := h.exists_height
  exact climb_eq_ok h hheight (hbound x) hx

end Roots

/-! ## Joining -/

/-- A forest over the members below `n` in which all of them have a rank. -/
structure Ranked (n : Nat) (s : DisjointSet) : Prop where
  forest : s.Forest
  size : s.size = n
  rank : s.rank.size = n

theorem size_rank_climb (fuel : Nat) (s : DisjointSet) (x : Nat) :
    (s.climb fuel x).2.rank.size = s.rank.size := by
  induction fuel generalizing s x with
  | zero => rfl
  | succ fuel ih =>
    unfold DisjointSet.climb
    split
    · rfl
    · rw [ih]
      rfl

theorem size_rank_link (s : DisjointSet) (a b : Nat) :
    (s.link a b).rank.size = s.rank.size := by
  unfold DisjointSet.link
  split
  · rfl
  · split
    · rfl
    · split <;> simp [setParent]

section Join

variable {n : Nat} {s : DisjointSet}

theorem ranked_singletons (n : Nat) : Ranked n (singletons n) := by
  obtain ⟨hforest, hsize, -⟩ := forest_singletons n
  exact ⟨hforest, hsize, by simp [singletons]⟩

theorem Ranked.find (h : Ranked n s) (x : Nat) : Ranked n (s.find x).2 := by
  obtain ⟨-, hforest, -, hsize⟩ := h.forest.find x
  exact ⟨hforest, hsize.trans h.size, (size_rank_climb ..).trans h.rank⟩

theorem Ranked.lt_root (h : Ranked n s) {x : Nat} (hx : x < n) :
    (s.find x).1 < n := by
  obtain ⟨hroot, -⟩ := h.forest.find x
  exact (hroot.lt h.forest (hx.trans_eq h.size.symm)).trans_eq h.size

theorem link_eq_ok (h : Ranked n s) {a b : Nat} (ha : a < n) (hb : b < n) :
    link s a b = .ok (s.link a b) := by
  have hrank : ∀ {x : Nat}, x < n → x < s.rank.size := fun hx =>
    hx.trans_eq h.rank.symm
  have hparent : ∀ {x : Nat}, x < n → x < s.parent.size := fun hx =>
    hx.trans_eq h.size.symm
  simp [link, hrank ha, hrank hb, hparent ha, hparent hb]

theorem union_eq_ok (h : Ranked n s) {a b : Nat} (ha : a < n) (hb : b < n) :
    union s a b = .ok (s.union a b) ∧ Ranked n (s.union a b) := by
  have h1 := h.find a
  have h2 := h1.find b
  have hunion := h.forest.union (ha.trans_eq h.size.symm)
    (hb.trans_eq h.size.symm)
  refine ⟨?_, hunion.1, hunion.2.1.trans h.size,
    (size_rank_link ..).trans h2.rank⟩
  rw [union, find_eq_ok h.forest (ha.trans_eq h.size.symm), ok_bind]
  dsimp only
  rw [find_eq_ok h1.forest (hb.trans_eq h1.size.symm), ok_bind]
  exact link_eq_ok h2 (h.lt_root ha) (h1.lt_root hb)

theorem joinPipelined_eq_ok {deps : List Dependency}
    (hdeps : InRange n deps) :
    joinPipelined n deps = .ok (Region.joinPipelined n deps) := by
  refine (foldlM_eq_ok (P := Ranked n) (fun dep hdep s hs => ?_)
    (ranked_singletons n)).1
  obtain ⟨hp, hc⟩ := hdeps dep (List.mem_of_mem_filter hdep)
  exact union_eq_ok hs hp hc

end Join

/-! ## Classes -/

section Classes

variable {n : Nat} {sets : DisjointSet} {g : Grouping}

theorem add_eq_ok {k : Nat} (h : Grouping.Sound sets k g)
    (hsize : g.sets.size = n) (hk : k < n) : add g k = .ok (g.add k) := by
  rw [add, find_eq_ok h.forest (hk.trans_eq hsize.symm), ok_bind]
  dsimp only
  split
  · rename_i c hc
    rw [reach_array (h.byRoot_lt _ c hc)]
    rfl
  · rfl

theorem size_sets_add (h : g.sets.Forest) (k : Nat) :
    (g.add k).sets.size = g.sets.size := by
  obtain ⟨-, -, -, hsize⟩ := h.find k
  simp only [Grouping.add]
  split <;> exact hsize

theorem grouping_eq_ok (h : sets.Forest) (hsize : sets.size = n) :
    grouping n sets = .ok (Region.grouping n sets) := by
  -- The members are put into classes in order.
  have hfirst : ∀ k ≤ n, (List.range k).foldlM add { sets } =
      .ok (Region.grouping k sets) ∧
      (Region.grouping k sets).sets.size = n := by
    intro k
    induction k with
    | zero => exact fun _ => ⟨rfl, hsize⟩
    | succ k ih =>
      intro hk
      obtain ⟨hok, hsets⟩ := ih (by omega)
      have hsound := Grouping.sound_grouping h k
      have hnext : Region.grouping (k + 1) sets =
          (Region.grouping k sets).add k := by
        simp [Region.grouping, List.range_succ]
      rw [hnext, size_sets_add hsound.forest]
      refine ⟨?_, hsets⟩
      simp [List.range_succ, hok, add_eq_ok hsound hsets hk]
  exact (hfirst n le_rfl).1

/-- Every member has a class, and the table of successors an entry for
it. -/
theorem successors_eq_ok (hforest : sets.Forest)
    (h : Grouping.Sound sets n g) {deps : List Dependency}
    (hdeps : InRange n deps) :
    successors g deps = .ok (Region.successors g deps) ∧
      (Region.successors g deps).size = g.classes.size := by
  refine foldlM_eq_ok
    (P := fun succ : Array (List Nat) => succ.size = g.classes.size)
    (fun dep hdep succ hsucc => ?_) Array.size_replicate
  obtain ⟨hp, hc⟩ := hdeps dep hdep
  have hclass : ∀ {i : Nat}, i < n → ∃ c, g.classOf[i]? = some c ∧
      c < g.classes.size := by
    intro i hi
    have hget := Array.getElem?_eq_getElem (hi.trans_eq h.size.symm)
    exact ⟨_, hget, h.class_lt hforest hget⟩
  obtain ⟨source, hsource, hlt⟩ := hclass hp
  obtain ⟨target, htarget, -⟩ := hclass hc
  simp only [addSuccessor, Region.addSuccessor, hsource, htarget, reach_some,
    ok_bind]
  rw [reach_array (hlt.trans_eq hsucc.symm)]
  by_cases hst : source = target
  · simp [hst, hsucc]
  · simp [hst, hsucc]

end Classes

/-! ## The partition -/

/-- A component is not empty, nor are its classes. -/
theorem component_eq_ok {classes : Array (List Nat)} {c : List Nat}
    (hc : c ≠ []) (hlt : ∀ i ∈ c, i < classes.size)
    (hne : ∀ i < classes.size, classes[i]?.getD [] ≠ []) :
    component classes c =
      .ok (ascending (c.flatMap (classes[·]?.getD []))) := by
  rw [component, collect_eq_ok (g := (classes[·]?.getD [])) fun i hi => by
    simp [hlt i hi], ok_bind]
  dsimp only
  obtain ⟨i, hi⟩ := List.exists_mem_of_ne_nil c hc
  obtain ⟨v, hv⟩ := List.exists_mem_of_ne_nil _ (hne i (hlt i hi))
  have hmem : v ∈ ascending (c.flatMap (classes[·]?.getD [])) :=
    mem_ascending.mpr (List.mem_flatMap.mpr ⟨i, hi, hv⟩)
  cases hlist : ascending (c.flatMap (classes[·]?.getD [])) with
  | nil => simp [hlist] at hmem
  | cons first rest => rfl

/-- Partitioning the members of a topology or of a class. -/
theorem partition_eq_ok {n : Nat} {deps : List Dependency}
    (hdeps : InRange n deps) :
    partition n deps = .ok (Region.partition n deps) := by
  obtain ⟨hforest, hsize, -⟩ := Region.forest_joinPipelined hdeps
  have hg := Grouping.sound_grouping hforest n
  obtain ⟨hsuccessors, hlength⟩ := successors_eq_ok hforest hg hdeps
  unfold partition Region.partition
  rw [joinPipelined_eq_ok hdeps, ok_bind, grouping_eq_ok hforest hsize,
    ok_bind]
  dsimp only
  set g := Region.grouping n (Region.joinPipelined n deps)
  set succ := Region.successors g deps
  have hmembers : g.members.size = g.classes.size := by
    rw [Grouping.members, Array.size_map]
  have hsucc : ∀ c : Nat, ∀ d ∈ succ[c]?.getD [], d < g.members.size := by
    intro c d hd
    obtain ⟨-, -, dep, -, -, hclass⟩ := (Region.mem_successors c d).mp hd
    rw [hmembers]
    exact hg.class_lt hforest hclass
  have hcomponents := classes_stronglyConnected hsucc
  rw [hsuccessors, ok_bind,
    stronglyConnected_eq_ok (hlength.trans hmembers.symm) hsucc, ok_bind]
  split
  · rfl
  · rw [mapM_eq_ok fun c hc => component_eq_ok
      (hcomponents.nonempty c hc)
      (fun i hi => (hcomponents.covers i).mp ⟨c, hc, hi⟩)
      fun i hi => hg.membersOf_ne_nil (hi.trans_eq hmembers)]
    rfl

end Checked

end ControlPlane
