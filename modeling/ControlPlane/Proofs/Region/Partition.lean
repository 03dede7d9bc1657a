import Mathlib
import ControlPlane.Region.Partition
import ControlPlane.Proofs.Region.DisjointSet
import ControlPlane.Proofs.Region.Search

/-!
# A partition consists of mutually dependent members

Joining members along pipelined dependencies and then merging cycles is the
same as going along every dependency forwards, and along the pipelined ones
also backwards: a region consists of the members that reach each other in
this way. When the search finds as many components as there were classes,
nothing had to be merged.
-/

namespace ControlPlane

namespace Region

open DisjointSet

/-- Where one step leads: from a producer to its consumer, and also back if
the dependency is pipelined. -/
def Arc (deps : List Dependency) (x y : Nat) : Prop :=
  ∃ d ∈ deps, (d.producer = x ∧ d.consumer = y) ∨
    (d.pipelined = true ∧ d.producer = y ∧ d.consumer = x)

/-- Where any number of steps leads. -/
def Leads (deps : List Dependency) : Nat → Nat → Prop :=
  Relation.ReflTransGen (Arc deps)

/-- A pipelined dependency between two members. -/
def Pipelined (deps : List Dependency) (x y : Nat) : Prop :=
  ∃ d ∈ deps, d.pipelined = true ∧ d.producer = x ∧ d.consumer = y

/-- All dependencies are between members. -/
def InRange (n : Nat) (deps : List Dependency) : Prop :=
  ∀ d ∈ deps, d.producer < n ∧ d.consumer < n

/-! ## Joining along pipelined dependencies -/

/-- What one more pair adds to an equivalence. -/
theorem eqvGen_insert {R R' : Nat → Nat → Prop} {a b : Nat}
    (hR : ∀ x y, R' x y ↔ R x y ∨ (a = x ∧ b = y)) (x y : Nat) :
    Relation.EqvGen R' x y ↔ Relation.EqvGen R x y ∨
      (Relation.EqvGen R x a ∧ Relation.EqvGen R b y) ∨
      (Relation.EqvGen R x b ∧ Relation.EqvGen R a y) := by
  have hsymm : ∀ {x y}, Relation.EqvGen R x y → Relation.EqvGen R y x :=
    fun h => .symm _ _ h
  have htrans : ∀ {x y z}, Relation.EqvGen R x y →
      Relation.EqvGen R y z → Relation.EqvGen R x z :=
    fun h h' => .trans _ _ _ h h'
  constructor
  · intro h
    induction h with
    | rel x y hxy =>
      rcases (hR x y).mp hxy with hxy | ⟨rfl, rfl⟩
      · exact .inl (.rel _ _ hxy)
      · exact .inr (.inl ⟨.refl _, .refl _⟩)
    | refl x => exact .inl (.refl x)
    | symm x y _ ih =>
      rcases ih with h | ⟨h, h'⟩ | ⟨h, h'⟩
      · exact .inl (hsymm h)
      · exact .inr (.inr ⟨hsymm h', hsymm h⟩)
      · exact .inr (.inl ⟨hsymm h', hsymm h⟩)
    | trans x y z _ _ ih ih' =>
      -- Two chains that both go through the new pair meet at one of its ends.
      rcases ih with h | ⟨h, h'⟩ | ⟨h, h'⟩
      · rcases ih' with k | ⟨k, k'⟩ | ⟨k, k'⟩
        · exact .inl (htrans h k)
        · exact .inr (.inl ⟨htrans h k, k'⟩)
        · exact .inr (.inr ⟨htrans h k, k'⟩)
      · rcases ih' with k | ⟨k, k'⟩ | ⟨k, k'⟩
        · exact .inr (.inl ⟨h, htrans h' k⟩)
        · exact .inr (.inl ⟨h, k'⟩)
        · exact .inl (htrans h k')
      · rcases ih' with k | ⟨k, k'⟩ | ⟨k, k'⟩
        · exact .inr (.inr ⟨h, htrans h' k⟩)
        · exact .inl (htrans h k')
        · exact .inr (.inr ⟨h, k'⟩)
  · have hmono : ∀ {x y}, Relation.EqvGen R x y →
        Relation.EqvGen R' x y := fun h =>
      h.mono fun x y hxy => (hR x y).mpr (.inl hxy)
    have hab : Relation.EqvGen R' a b :=
      .rel _ _ ((hR a b).mpr (.inr ⟨rfl, rfl⟩))
    rintro (h | ⟨h, h'⟩ | ⟨h, h'⟩)
    · exact hmono h
    · exact ((hmono h).trans _ _ _ hab).trans _ _ _ (hmono h')
    · exact ((hmono h).trans _ _ _ (hab.symm _ _)).trans _ _ _ (hmono h')

/-- What relates nothing generates equality. -/
theorem eqvGen_of_forall_not {R : Nat → Nat → Prop} (hR : ∀ x y, ¬ R x y)
    (x y : Nat) : Relation.EqvGen R x y ↔ x = y := by
  constructor
  · intro h
    exact eq_equivalence.eqvGen_iff.mp
      (h.mono fun x y hxy => absurd hxy (hR x y))
  · rintro rfl
    exact .refl x

/-- Elements are joined if the pairs that were united connect them. -/
theorem forest_foldl_union {n : Nat} {ds : List Dependency}
    (hds : InRange n ds) :
    (ds.foldl (fun s d => s.union d.producer d.consumer)
      (singletons n)).Forest ∧
    (ds.foldl (fun s d => s.union d.producer d.consumer)
      (singletons n)).size = n ∧
    ∀ x y, (ds.foldl (fun s d => s.union d.producer d.consumer)
      (singletons n)).Joined x y ↔
        Relation.EqvGen (fun x y => ∃ d ∈ ds, d.producer = x ∧
          d.consumer = y) x y := by
  induction ds using List.reverseRecOn with
  | nil =>
    obtain ⟨hforest, hsize, hjoined⟩ := forest_singletons n
    refine ⟨hforest, hsize, fun x y => (hjoined x y).trans ?_⟩
    exact (eqvGen_of_forall_not (by simp) x y).symm
  | append_singleton ds d ih =>
    obtain ⟨hforest, hsize, hjoined⟩ :=
      ih fun e he => hds e (List.mem_append_left _ he)
    obtain ⟨hp, hc⟩ := hds d (by simp)
    rw [List.foldl_append, List.foldl_cons, List.foldl_nil]
    obtain ⟨hforest', hsize', hjoined'⟩ :=
      hforest.union (hsize.symm ▸ hp) (hsize.symm ▸ hc)
    refine ⟨hforest', hsize'.trans hsize, fun x y => ?_⟩
    rw [hjoined', hjoined, hjoined, hjoined, hjoined, hjoined]
    refine (eqvGen_insert (a := d.producer) (b := d.consumer) ?_ x y).symm
    intro x y
    simp only [List.mem_append, List.mem_singleton, or_and_right,
      exists_or, exists_eq_left]

/-- Two members are joined if pipelined dependencies connect them. -/
theorem forest_joinPipelined {n : Nat} {deps : List Dependency}
    (hdeps : InRange n deps) :
    (joinPipelined n deps).Forest ∧ (joinPipelined n deps).size = n ∧
      ∀ x y, (joinPipelined n deps).Joined x y ↔
        Relation.EqvGen (Pipelined deps) x y := by
  have hpipelined : InRange n (deps.filter (·.pipelined)) := fun d hd =>
    hdeps d (List.mem_of_mem_filter hd)
  obtain ⟨hforest, hsize, hjoined⟩ := forest_foldl_union hpipelined
  refine ⟨hforest, hsize, fun x y => ?_⟩
  rw [joinPipelined, hjoined]
  have hrel : (fun x y => ∃ d ∈ deps.filter (·.pipelined),
      d.producer = x ∧ d.consumer = y) = Pipelined deps := by
    funext x y
    simp only [Pipelined, List.mem_filter, and_assoc]
  rw [hrel]

/-! ## Numbering the classes -/

/-- What holds of the classes of the first members. -/
structure Grouping.Sound (sets : DisjointSet) (k : Nat) (g : Grouping) :
    Prop where
  forest : g.sets.Forest
  roots : SameRoots sets g.sets
  size : g.classOf.size = k
  byRoot_lt : ∀ r c : Nat, g.byRoot[r]? = some c → c < g.classes.size
  byRoot_inj : ∀ r r' c : Nat, g.byRoot[r]? = some c → g.byRoot[r']? = some c →
    r = r'
  /-- The class of a member is that of its root. -/
  classOf : ∀ i < k, ∀ r, sets.HasRoot i r →
    ∃ c, g.byRoot[r]? = some c ∧ g.classOf[i]? = some c
  mem : ∀ (c : Nat) l, g.classes[c]? = some l →
    ∀ i, i ∈ l ↔ g.classOf[i]? = some c
  nonempty : ∀ (c : Nat) l, g.classes[c]? = some l → l ≠ []
  nodup : ∀ (c : Nat) l, g.classes[c]? = some l → l.Nodup

namespace Grouping

variable {sets : DisjointSet} {k : Nat} {g : Grouping}

theorem sound_start (h : sets.Forest) : Sound sets 0 { sets } where
  forest := h
  roots _ _ := Iff.rfl
  size := rfl
  byRoot_lt := by simp
  byRoot_inj := by simp
  classOf := by simp
  mem := by simp
  nonempty := by simp
  nodup := by simp

/-- Only the first members have a class. -/
theorem Sound.lt (h : Sound sets k g) {i c : Nat}
    (hi : g.classOf[i]? = some c) : i < k :=
  h.size ▸ (Array.getElem?_eq_some_iff.mp hi).1

theorem Sound.class_lt (h : Sound sets k g) (hforest : sets.Forest)
    {i c : Nat} (hi : g.classOf[i]? = some c) : c < g.classes.size := by
  obtain ⟨r, hr⟩ := hforest.exists_root i
  obtain ⟨c', hroot, hi'⟩ := h.classOf i (h.lt hi) r hr
  rw [hi, Option.some.injEq] at hi'
  exact hi' ▸ h.byRoot_lt r c' hroot

theorem Sound.getElem?_classOf_push (h : Sound sets k g) (c i : Nat) :
    (g.classOf.push c)[i]? = if i = k then some c else g.classOf[i]? := by
  rw [Array.getElem?_push, h.size]

theorem Sound.classOf_eq_none (h : Sound sets k g) : g.classOf[k]? = none :=
  Array.getElem?_eq_none h.size.le

section Add

variable {s : DisjointSet} {r : Nat}

/-- The next member joins the class of its root. -/
theorem Sound.join (h : Sound sets k g) (hforest : s.Forest)
    (hroots : SameRoots sets s) (hroot : sets.HasRoot k r) {c : Nat}
    (hc : g.byRoot[r]? = some c) :
    Sound sets (k + 1) { g with
      sets := s
      classes := g.classes.modify c (k :: ·)
      classOf := g.classOf.push c } where
  forest := hforest
  roots := hroots
  size := by simp [h.size]
  byRoot_lt r c hr := by
    rw [Array.size_modify]
    exact h.byRoot_lt r c hr
  byRoot_inj := h.byRoot_inj
  classOf i hi r' hr' := by
    rw [h.getElem?_classOf_push]
    -- The new member has the root that leads to its class.
    by_cases hik : i = k
    · subst hik
      rw [if_pos rfl, hr'.unique hroot]
      exact ⟨c, hc, rfl⟩
    · rw [if_neg hik]
      exact h.classOf i (by omega) r' hr'
  mem c' l hl i := by
    rw [Array.getElem?_modify] at hl
    rw [h.getElem?_classOf_push]
    -- Only one class gains a member, and the new member is in no other.
    by_cases hcc : c = c'
    · subst hcc
      rw [if_pos rfl] at hl
      obtain ⟨l', hl', rfl⟩ := Option.map_eq_some_iff.mp hl
      rw [List.mem_cons, h.mem c l' hl' i]
      by_cases hik : i = k <;> simp [hik]
    · rw [if_neg hcc] at hl
      rw [h.mem c' l hl i]
      by_cases hik : i = k
      · simp [hik, h.classOf_eq_none, hcc]
      · simp [hik]
  nonempty c' l hl := by
    rw [Array.getElem?_modify] at hl
    split at hl
    · obtain ⟨l', -, rfl⟩ := Option.map_eq_some_iff.mp hl
      exact List.cons_ne_nil _ _
    · exact h.nonempty c' l hl
  nodup c' l hl := by
    rw [Array.getElem?_modify] at hl
    split at hl
    · obtain ⟨l', hl', rfl⟩ := Option.map_eq_some_iff.mp hl
      refine List.nodup_cons.mpr ⟨fun hmem => ?_, h.nodup c' l' hl'⟩
      exact absurd (h.lt ((h.mem c' l' hl' k).mp hmem)) (lt_irrefl k)
    · exact h.nodup c' l hl

theorem getElem?_byRoot_insert (hc : g.byRoot[r]? = none) (r' c : Nat) :
    (g.byRoot.insert r g.classes.size)[r']? = some c ↔
      (r' = r ∧ c = g.classes.size) ∨ g.byRoot[r']? = some c := by
  rw [Std.TreeMap.getElem?_insert]
  by_cases hr : r = r'
  · subst hr
    simp [hc, eq_comm]
  · simp [hr, Ne.symm hr]

/-- The next member has a class of its own if none is known for its root. -/
theorem Sound.found (h : Sound sets k g) (hsets : sets.Forest)
    (hforest : s.Forest) (hroots : SameRoots sets s)
    (hroot : sets.HasRoot k r) (hc : g.byRoot[r]? = none) :
    Sound sets (k + 1)
      { sets := s
        byRoot := g.byRoot.insert r g.classes.size
        classes := g.classes.push [k]
        classOf := g.classOf.push g.classes.size } where
  forest := hforest
  roots := hroots
  size := by simp [h.size]
  byRoot_lt r' c hr := by
    rw [Array.size_push]
    rcases (getElem?_byRoot_insert hc r' c).mp hr with ⟨-, rfl⟩ | hr
    · exact Nat.lt_succ_self _
    · exact Nat.lt_succ_of_lt (h.byRoot_lt r' c hr)
  byRoot_inj r1 r2 c h1 h2 := by
    -- No root had the new class before.
    rcases (getElem?_byRoot_insert hc r1 c).mp h1 with ⟨heq1, hc1⟩ | h1 <;>
      rcases (getElem?_byRoot_insert hc r2 c).mp h2 with ⟨heq2, hc2⟩ | h2
    · rw [heq1, heq2]
    · exact absurd (h.byRoot_lt r2 c h2) (hc1 ▸ lt_irrefl _)
    · exact absurd (h.byRoot_lt r1 c h1) (hc2 ▸ lt_irrefl _)
    · exact h.byRoot_inj r1 r2 c h1 h2
  classOf i hi r' hr' := by
    simp only [h.getElem?_classOf_push, getElem?_byRoot_insert hc]
    by_cases hik : i = k
    · subst hik
      exact ⟨g.classes.size, .inl ⟨hr'.unique hroot, rfl⟩, by rw [if_pos rfl]⟩
    · obtain ⟨c, hroot', hclass⟩ := h.classOf i (by omega) r' hr'
      exact ⟨c, .inr hroot', by rwa [if_neg hik]⟩
  mem c l hl i := by
    rw [Array.getElem?_push] at hl
    rw [h.getElem?_classOf_push]
    split at hl
    · rename_i hlast
      cases hl
      subst hlast
      by_cases hik : i = k
      · simp [hik]
      · rw [List.mem_singleton, if_neg hik]
        refine iff_of_false hik fun hi => ?_
        exact absurd (h.class_lt hsets hi) (lt_irrefl _)
    · rename_i hlast
      rw [h.mem c l hl i]
      by_cases hik : i = k
      · simp [hik, h.classOf_eq_none, Ne.symm hlast]
      · simp [hik]
  nonempty c l hl := by
    rw [Array.getElem?_push] at hl
    split at hl
    · cases hl
      exact List.cons_ne_nil _ _
    · exact h.nonempty c l hl
  nodup c l hl := by
    rw [Array.getElem?_push] at hl
    split at hl
    · cases hl
      exact List.nodup_singleton k
    · exact h.nodup c l hl

theorem Sound.add (h : Sound sets k g) (hsets : sets.Forest) :
    Sound sets (k + 1) (g.add k) := by
  obtain ⟨hroot, hforest, hsame, -⟩ := h.forest.find k
  have hroots : SameRoots sets (g.sets.find k).2 := fun x r =>
    (hsame x r).trans (h.roots x r)
  have hrootk := (h.roots k _).mp hroot
  unfold Grouping.add
  dsimp only
  split
  · rename_i c hc
    exact h.join hforest hroots hrootk hc
  · rename_i hc
    exact h.found hsets hforest hroots hrootk hc

end Add

theorem sound_grouping (h : sets.Forest) (n : Nat) :
    Sound sets n (grouping n sets) := by
  unfold grouping
  induction n with
  | zero => exact sound_start h
  | succ n ih =>
    rw [List.range_succ, List.foldl_append, List.foldl_cons, List.foldl_nil]
    exact ih.add h

/-- Two members are in one class if they are joined. -/
theorem Sound.classOf_eq (h : Sound sets k g) (hforest : sets.Forest)
    {i j : Nat} (hi : i < k) (hj : j < k) :
    g.classOf[i]? = g.classOf[j]? ↔ sets.Joined i j := by
  obtain ⟨r, hr⟩ := hforest.exists_root i
  obtain ⟨r', hr'⟩ := hforest.exists_root j
  obtain ⟨c, hroot, hc⟩ := h.classOf i hi r hr
  obtain ⟨c', hroot', hc'⟩ := h.classOf j hj r' hr'
  rw [hc, hc', Option.some.injEq]
  constructor
  · rintro rfl
    exact ⟨r, hr, h.byRoot_inj r r' c hroot hroot' ▸ hr'⟩
  · rintro ⟨q, hq, hq'⟩
    rw [hr.unique hq] at hroot
    rw [hr'.unique hq', hroot, Option.some.injEq] at hroot'
    exact hroot'

/-- The members of a class, ascending. -/
def membersOf (g : Grouping) (c : Nat) : List Nat := g.members[c]?.getD []

theorem Sound.mem_membersOf (h : Sound sets k g) (hforest : sets.Forest)
    (c i : Nat) : i ∈ g.membersOf c ↔ g.classOf[i]? = some c := by
  rw [membersOf, members, Array.getElem?_map]
  cases hc : g.classes[c]? with
  | none =>
    refine iff_of_false (by simp) fun hi => ?_
    have hlt := h.class_lt hforest hi
    simp [hlt] at hc
  | some l =>
    rw [Option.map_some, Option.getD_some, List.mem_reverse]
    exact h.mem c l hc i

theorem Sound.membersOf_ne_nil (h : Sound sets k g) {c : Nat}
    (hc : c < g.classes.size) : g.membersOf c ≠ [] := by
  have hget : g.classes[c]? = some g.classes[c] := by simp [hc]
  have hne := h.nonempty c _ hget
  simp [membersOf, members, hget, hne]

theorem Sound.nodup_membersOf (h : Sound sets k g) {c : Nat}
    (hc : c < g.classes.size) : (g.membersOf c).Nodup := by
  have hget : g.classes[c]? = some g.classes[c] := by simp [hc]
  have hnodup := h.nodup c _ hget
  simpa [membersOf, members, hget] using hnodup

end Grouping

/-! ## Classes that depend on each other -/

section Successors

variable {g : Grouping} {deps : List Dependency}

/-- Whether a class was listed or not, it is listed afterwards. -/
theorem mem_append_unless_mem {l : List Nat} {x y : Nat} :
    x ∈ (if y ∈ l then l else l ++ [y]) ↔ x ∈ l ∨ y = x := by
  split
  · rename_i hy
    refine ⟨.inl, ?_⟩
    rintro (hx | rfl)
    · exact hx
    · exact hy
  · rw [List.mem_append, List.mem_singleton, eq_comm]

theorem mem_modify_append {succ : Array (List Nat)}
    {source target c c' : Nat} :
    c' ∈ (succ.modify source fun targets =>
        if target ∈ targets then targets else targets ++ [target])[c]?.getD [] ↔
      c' ∈ succ[c]?.getD [] ∨
        (c < succ.size ∧ source = c ∧ target = c') := by
  rw [Array.getElem?_modify]
  by_cases hc : source = c
  · subst hc
    rw [if_pos rfl]
    by_cases hlt : source < succ.size
    · rw [Array.getElem?_eq_getElem hlt, Option.map_some, Option.getD_some,
        Option.getD_some, mem_append_unless_mem]
      simp [hlt]
    · simp [hlt]
  · simp [hc]

theorem mem_addSuccessor {succ : Array (List Nat)} {d : Dependency}
    (c c' : Nat) :
    c' ∈ (addSuccessor g succ d)[c]?.getD [] ↔ c' ∈ succ[c]?.getD [] ∨
      (c < succ.size ∧ c ≠ c' ∧ g.classOf[d.producer]? = some c ∧
        g.classOf[d.consumer]? = some c') := by
  unfold addSuccessor
  split
  · rename_i source target hsource htarget
    rw [hsource, htarget, Option.some.injEq, Option.some.injEq]
    by_cases hst : source = target
    · rw [if_pos hst]
      refine ⟨.inl, ?_⟩
      rintro (hmem | ⟨-, hne, hc, hc'⟩)
      · exact hmem
      · exact absurd (hc.symm.trans (hst.trans hc')) hne
    · rw [if_neg hst, mem_modify_append]
      refine or_congr_right (and_congr_right fun _ => ⟨?_, And.right⟩)
      rintro ⟨rfl, rfl⟩
      exact ⟨hst, rfl, rfl⟩
  · rename_i hnone
    refine ⟨.inl, ?_⟩
    rintro (hmem | ⟨-, -, hc, hc'⟩)
    · exact hmem
    · exact absurd hc' (hnone c c' hc)

theorem size_addSuccessor (succ : Array (List Nat)) (d : Dependency) :
    (addSuccessor g succ d).size = succ.size := by
  unfold addSuccessor
  split
  · split
    · rfl
    · exact Array.size_modify
  · rfl

theorem mem_foldl_addSuccessor (ds : List Dependency)
    (succ : Array (List Nat)) (c c' : Nat) :
    c' ∈ (ds.foldl (addSuccessor g) succ)[c]?.getD [] ↔
      c' ∈ succ[c]?.getD [] ∨ (c < succ.size ∧ c ≠ c' ∧ ∃ d ∈ ds,
        g.classOf[d.producer]? = some c ∧
          g.classOf[d.consumer]? = some c') := by
  induction ds generalizing succ with
  | nil => simp
  | cons d ds ih =>
    rw [List.foldl_cons, ih, mem_addSuccessor, size_addSuccessor]
    simp only [List.exists_mem_cons_iff]
    tauto

/-- A class leads to the other classes that some member depends on it
from. -/
theorem mem_successors (c c' : Nat) :
    c' ∈ (successors g deps)[c]?.getD [] ↔ c < g.classes.size ∧ c ≠ c' ∧
      ∃ d ∈ deps, g.classOf[d.producer]? = some c ∧
        g.classOf[d.consumer]? = some c' := by
  have hnone : c' ∉ (Array.replicate g.classes.size
      ([] : List Nat))[c]?.getD [] := by
    rw [Array.getElem?_replicate]
    split <;> simp
  rw [successors, mem_foldl_addSuccessor, Array.size_replicate,
    or_iff_right hnone]

end Successors

/-! ## The partition -/

/-- Joined members lead to each other. -/
theorem leads_of_eqvGen {deps : List Dependency} {x y : Nat}
    (h : Relation.EqvGen (Pipelined deps) x y) :
    Leads deps x y ∧ Leads deps y x := by
  induction h with
  | rel x y hxy =>
    obtain ⟨d, hd, hpipelined, hx, hy⟩ := hxy
    exact ⟨.single ⟨d, hd, .inl ⟨hx, hy⟩⟩,
      .single ⟨d, hd, .inr ⟨hpipelined, hx, hy⟩⟩⟩
  | refl x => exact ⟨.refl, .refl⟩
  | symm _ _ _ ih => exact ih.symm
  | trans _ _ _ _ _ ih ih' => exact ⟨ih.1.trans ih'.1, ih'.2.trans ih.2⟩

theorem Leads.lt {n : Nat} {deps : List Dependency} (hdeps : InRange n deps)
    {v w : Nat} (hv : v < n) (h : Leads deps v w) : w < n := by
  induction h with
  | refl => exact hv
  | tail _ harc _ =>
    obtain ⟨d, hd, ⟨-, hw⟩ | ⟨-, hw, -⟩⟩ := harc
    · exact hw ▸ (hdeps d hd).2
    · exact hw ▸ (hdeps d hd).1

/-- Classes reach each other as their members lead to each other. -/
theorem reaches_iff_leads {n : Nat} {deps : List Dependency}
    (hdeps : InRange n deps) {c d v w : Nat}
    (hv : (grouping n (joinPipelined n deps)).classOf[v]? = some c)
    (hw : (grouping n (joinPipelined n deps)).classOf[w]? = some d) :
    Reaches ((successors (grouping n (joinPipelined n deps))
      deps)[·]?.getD []) c d ↔ Leads deps v w := by
  obtain ⟨hforest, hsize, hjoined⟩ := forest_joinPipelined hdeps
  have hg := Grouping.sound_grouping hforest n
  set g := grouping n (joinPipelined n deps) with hgdef
  have hsame : ∀ {x y : Nat}, x < n → y < n →
      g.classOf[x]? = g.classOf[y]? → Leads deps x y := by
    intro x y hx hy heq
    exact (leads_of_eqvGen ((hjoined x y).mp
      ((hg.classOf_eq hforest hx hy).mp heq))).1
  have hclass : ∀ {x : Nat}, x < n → ∃ c, g.classOf[x]? = some c := by
    intro x hx
    obtain ⟨r, hr⟩ := hforest.exists_root x
    obtain ⟨c, -, hc⟩ := hg.classOf x hx r hr
    exact ⟨c, hc⟩
  constructor
  · intro h
    -- A step between classes is a dependency between two of their members, and
    -- members of one class lead to each other.
    induction h generalizing w with
    | refl => exact hsame (hg.lt hv) (hg.lt hw) (hv.trans hw.symm)
    | tail _ hstep ih =>
      obtain ⟨-, -, dep, hdep, hproducer, hconsumer⟩ :=
        (mem_successors _ _).mp hstep
      have hfirst := ih hproducer
      have harc : Arc deps dep.producer dep.consumer :=
        ⟨dep, hdep, .inl ⟨rfl, rfl⟩⟩
      exact (hfirst.tail harc).trans (hsame (hg.lt hconsumer) (hg.lt hw)
        (hconsumer.trans hw.symm))
  · intro h
    -- An arc stays within a class, as all pipelined ones do, or it is a step
    -- to another class.
    induction h generalizing d with
    | refl =>
      rw [hv, Option.some.injEq] at hw
      exact hw ▸ .refl
    | tail hvx harc ih =>
      rename_i x y
      have hx := Leads.lt hdeps (hg.lt hv) hvx
      obtain ⟨cx, hcx⟩ := hclass hx
      have hreach := ih hcx
      by_cases heq : cx = d
      · exact heq ▸ hreach
      · obtain ⟨dep, hdep, ⟨rfl, rfl⟩ | ⟨hpipelined, rfl, rfl⟩⟩ := harc
        · refine hreach.tail ((mem_successors _ _).mpr
            ⟨hg.class_lt hforest hcx, heq, dep, hdep, hcx, hw⟩)
        · have hjoin : (joinPipelined n deps).Joined dep.consumer
              dep.producer :=
            (hjoined _ _).mpr (.symm _ _ (.rel _ _
              ⟨dep, hdep, hpipelined, rfl, rfl⟩))
          have hsameclass :=
            (hg.classOf_eq hforest hx (hdeps dep hdep).1).mpr hjoin
          rw [hcx, hw, Option.some.injEq] at hsameclass
          exact absurd hsameclass heq

/-- Any classes of classes give classes of members. -/
theorem classes_flatMap_membersOf {n : Nat} {deps : List Dependency}
    (hdeps : InRange n deps) {g : Grouping}
    (hg : g = grouping n (joinPipelined n deps)) {parts : List (List Nat)}
    (hparts : Classes g.members.size
      (Reaches ((successors g deps)[·]?.getD [])) parts) :
    Classes n (Leads deps) (parts.map (·.flatMap g.membersOf)) := by
  obtain ⟨hforest, -, -⟩ := forest_joinPipelined hdeps
  have hsound : g.Sound (joinPipelined n deps) n :=
    hg ▸ Grouping.sound_grouping hforest n
  have hmem := hsound.mem_membersOf hforest
  have hsize : g.members.size = g.classes.size := by
    rw [Grouping.members, Array.size_map]
  rw [hsize] at hparts
  refine hparts.flatten ?nonempty ?nodup ?covers ?unique ?related ?bound
  case nonempty => exact fun c hc => hsound.membersOf_ne_nil hc
  case nodup => exact fun c hc => hsound.nodup_membersOf hc
  case covers =>
    intro v
    constructor
    · rintro ⟨c, -, hv⟩
      exact hsound.lt ((hmem c v).mp hv)
    · intro hv
      obtain ⟨r, hr⟩ := hforest.exists_root v
      obtain ⟨c, -, hc⟩ := hsound.classOf v hv r hr
      exact ⟨c, hsound.class_lt hforest hc, (hmem c v).mpr hc⟩
  case unique =>
    intro c _ d _ v hvc hvd
    rw [hmem] at hvc hvd
    rw [hvc, Option.some.injEq] at hvd
    exact hvd
  case related =>
    intro c _ d _ v hv w hw
    rw [hmem, hg] at hv hw
    rw [hg]
    exact reaches_iff_leads hdeps hv hw
  case bound => exact fun v w hv hvw => hvw.lt hdeps hv

/-- A partition consists of the members that lead to each other. -/
theorem classes_partition {n : Nat} {deps : List Dependency}
    (hdeps : InRange n deps) :
    Classes n (Leads deps) (partition n deps) := by
  obtain ⟨hforest, -, -⟩ := forest_joinPipelined hdeps
  have hg := Grouping.sound_grouping hforest n
  unfold partition
  dsimp only
  set g := grouping n (joinPipelined n deps) with hgdef
  have hsucc : ∀ c : Nat, ∀ d ∈ (successors g deps)[c]?.getD [],
      d < g.members.size := by
    intro c d hd
    obtain ⟨-, -, dep, -, -, hclass⟩ := (mem_successors c d).mp hd
    rw [Grouping.members, Array.size_map]
    exact hg.class_lt hforest hclass
  have hcomponents := classes_stronglyConnected hsucc
  -- With as many components as classes, nothing has to be merged.
  split
  · rename_i hlen
    have hsingle :=
      classes_flatMap_membersOf hdeps hgdef (hcomponents.singletons hlen)
    have hlist : ((List.range g.members.size).map ([·])).map
        (·.flatMap g.membersOf) = g.members.toList := by
      rw [List.map_map]
      apply List.ext_getElem?
      intro c
      simp only [List.getElem?_map, Array.getElem?_toList]
      by_cases hc : c < g.members.size <;> simp [hc, Grouping.membersOf]
    rwa [hlist] at hsingle
  · have hmerged :=
      (classes_flatMap_membersOf hdeps hgdef hcomponents).ascending
    rwa [List.map_map] at hmerged

end Region

end ControlPlane
