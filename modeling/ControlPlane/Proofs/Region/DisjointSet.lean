import Mathlib
import ControlPlane.Region.DisjointSet

/-!
# Disjoint sets keep their classes

A forest stays a forest when a path is halved and when a root is hung below
another, so every element has a root, and climbing finds it within as many
steps as there are elements. Halving changes no root; joining two elements
merges their classes and no others.
-/

namespace ControlPlane

namespace DisjointSet

/-- The parents lead to a root from everywhere. -/
structure Forest (s : DisjointSet) : Prop where
  bound : ∀ x < s.size, s.parentOf x < s.size
  /-- Parents lie deeper than their children. -/
  acyclic : ∃ height : Nat → Nat,
    ∀ x, s.parentOf x ≠ x → height (s.parentOf x) < height x

/-- The root that the parents of an element lead to. -/
inductive HasRoot (s : DisjointSet) : Nat → Nat → Prop where
  | root {x : Nat} (h : s.parentOf x = x) : HasRoot s x x
  | step {x r : Nat} (h : s.parentOf x ≠ x) (hr : HasRoot s (s.parentOf x) r) :
      HasRoot s x r

/-- Whether two elements have one root. -/
def Joined (s : DisjointSet) (x y : Nat) : Prop :=
  ∃ r, s.HasRoot x r ∧ s.HasRoot y r

variable {s : DisjointSet}

/-! ## Roots -/

theorem HasRoot.parent {x r : Nat} (h : s.HasRoot x r) :
    s.HasRoot (s.parentOf x) r := by
  cases h with
  | root h => rw [h]; exact .root h
  | step _ hr => exact hr

theorem HasRoot.of_parent {x r : Nat} (h : s.HasRoot (s.parentOf x) r) :
    s.HasRoot x r := by
  by_cases hx : s.parentOf x = x
  · rwa [hx] at h
  · exact .step hx h

theorem HasRoot.parentOf_root {x r : Nat} (h : s.HasRoot x r) :
    s.parentOf r = r := by
  induction h with
  | root h => exact h
  | step _ _ ih => exact ih

theorem HasRoot.unique {x r r' : Nat} (h : s.HasRoot x r)
    (h' : s.HasRoot x r') : r = r' := by
  induction h with
  | root h =>
    cases h' with
    | root _ => rfl
    | step hne _ => exact absurd h hne
  | step hne _ ih => exact ih h'.parent

theorem parentOf_of_le {x : Nat} (h : s.size ≤ x) : s.parentOf x = x := by
  simp [parentOf, Array.getElem?_eq_none h]

theorem lt_of_parentOf_ne {x : Nat} (h : s.parentOf x ≠ x) : x < s.size := by
  by_contra hx
  exact h (parentOf_of_le (Nat.le_of_not_lt hx))

theorem Forest.exists_root (h : s.Forest) (x : Nat) : ∃ r, s.HasRoot x r := by
  obtain ⟨height, hheight⟩ := h.acyclic
  induction hx : height x using Nat.strong_induction_on generalizing x with
  | _ k ih =>
    by_cases hroot : s.parentOf x = x
    · exact ⟨x, .root hroot⟩
    · obtain ⟨r, hr⟩ := ih _ (hx ▸ hheight x hroot) (s.parentOf x) rfl
      exact ⟨r, .step hroot hr⟩

theorem HasRoot.lt (h : s.Forest) {x r : Nat} (hr : s.HasRoot x r)
    (hx : x < s.size) : r < s.size := by
  induction hr with
  | root _ => exact hx
  | step _ _ ih => exact ih (h.bound _ hx)

theorem Joined.symm {x y : Nat} (h : s.Joined x y) : s.Joined y x := by
  obtain ⟨r, hx, hy⟩ := h
  exact ⟨r, hy, hx⟩

/-- No height has to exceed the number of elements: what counts is how many
elements are lower. -/
theorem Forest.exists_height (h : s.Forest) :
    ∃ height : Nat → Nat, (∀ x, height x ≤ s.size) ∧
      ∀ x, s.parentOf x ≠ x → height (s.parentOf x) < height x := by
  obtain ⟨height, hheight⟩ := h.acyclic
  refine ⟨fun x => ((Finset.range s.size).filter
    (height · < height x)).card, ?_, ?_⟩
  · intro x
    exact (Finset.card_filter_le _ _).trans_eq (Finset.card_range _)
  · intro x hx
    apply Finset.card_lt_card
    rw [Finset.ssubset_iff_of_subset]
    · refine ⟨s.parentOf x, ?_, by simp⟩
      rw [Finset.mem_filter, Finset.mem_range]
      exact ⟨h.bound x (lt_of_parentOf_ne hx), hheight x hx⟩
    · intro y hy
      rw [Finset.mem_filter] at hy ⊢
      exact ⟨hy.1, hy.2.trans (hheight x hx)⟩

theorem height_grandparent {height : Nat → Nat}
    (hheight : ∀ x, s.parentOf x ≠ x → height (s.parentOf x) < height x)
    {x : Nat} (hx : s.parentOf x ≠ x) :
    height (s.parentOf (s.parentOf x)) < height x := by
  have h1 := hheight x hx
  by_cases hp : s.parentOf (s.parentOf x) = s.parentOf x
  · rw [hp]
    exact h1
  · exact (hheight _ hp).trans h1

/-! ## Hanging an element elsewhere -/

theorem parentOf_setParent {x y : Nat} (hx : x < s.size) (z : Nat) :
    (s.setParent x y).parentOf z = if z = x then y else s.parentOf z := by
  simp only [parentOf, setParent, Array.getElem?_setIfInBounds]
  by_cases hz : x = z
  · have hz' : z < s.parent.size := hz ▸ hx
    simp [hz, hz']
  · simp [hz, Ne.symm hz]

@[simp] theorem size_setParent (x y : Nat) :
    (s.setParent x y).size = s.size := by
  simp [size, setParent]

/-- Two sets have the same roots. -/
def SameRoots (s s' : DisjointSet) : Prop :=
  ∀ x r, s'.HasRoot x r ↔ s.HasRoot x r

theorem Forest.halve (h : s.Forest) {x : Nat} (hx : s.parentOf x ≠ x) :
    (s.setParent x (s.parentOf (s.parentOf x))).Forest ∧
      SameRoots s (s.setParent x (s.parentOf (s.parentOf x))) := by
  set g := s.parentOf (s.parentOf x) with hg
  set s' := s.setParent x g with hs'
  have hlt := lt_of_parentOf_ne hx
  have hparent : ∀ z, s'.parentOf z = if z = x then g else s.parentOf z :=
    parentOf_setParent hlt
  obtain ⟨height, hheight⟩ := h.acyclic
  have hgx : height g < height x := height_grandparent hheight hx
  have hforest : s'.Forest := by
    refine ⟨?_, height, ?_⟩
    · intro z hz
      rw [hs', size_setParent] at hz ⊢
      rw [← hs', hparent]
      split
      · exact h.bound _ (h.bound _ hlt)
      · exact h.bound z hz
    · intro z hz
      rw [hparent] at hz ⊢
      split
      · rename_i hzx
        rw [hzx]
        exact hgx
      · rename_i hzx
        rw [if_neg hzx] at hz
        exact hheight z hz
  -- Going up from any element comes to the same root, by induction on its
  -- height: at `x` one parent is left out.
  have hkeep : ∀ z r, s.HasRoot z r → s'.HasRoot z r := by
    intro z r hr
    induction hz : height z using Nat.strong_induction_on
      generalizing z with
    | _ k ih =>
      by_cases hzx : z = x
      · subst hzx
        have hnext : s'.parentOf z = g := by rw [hparent, if_pos rfl]
        apply HasRoot.of_parent
        rw [hnext]
        exact ih _ (hz ▸ hgx) g hr.parent.parent rfl
      · have hnext : s'.parentOf z = s.parentOf z := by
          rw [hparent, if_neg hzx]
        by_cases hroot : s.parentOf z = z
        · have heq : r = z := hr.unique (.root hroot)
          subst heq
          exact .root (hnext.trans hroot)
        · apply HasRoot.of_parent
          rw [hnext]
          exact ih _ (hz ▸ hheight z hroot) _ hr.parent rfl
  refine ⟨hforest, fun z r => ⟨?_, hkeep z r⟩⟩
  intro hr
  obtain ⟨r', hr'⟩ := h.exists_root z
  rwa [hr.unique (hkeep z r' hr')]

theorem size_climb (fuel : Nat) (s : DisjointSet) (x : Nat) :
    (climb fuel s x).2.size = s.size := by
  induction fuel generalizing s x with
  | zero => rfl
  | succ fuel ih =>
    unfold climb
    split
    · rfl
    · rw [ih, size_setParent]

/-- Climbing finds the root and changes no root, if it may take as many
steps as the element is high. -/
theorem Forest.climb (h : s.Forest) {height : Nat → Nat} {fuel x : Nat}
    (hheight : ∀ x, s.parentOf x ≠ x → height (s.parentOf x) < height x)
    (hfuel : height x ≤ fuel) :
    s.HasRoot x (climb fuel s x).1 ∧ (climb fuel s x).2.Forest ∧
      SameRoots s (climb fuel s x).2 := by
  -- By induction on the steps left. The grandparent is lower, and halving
  -- changes no height.
  induction fuel generalizing s x with
  | zero =>
    have hroot : s.parentOf x = x := by
      by_contra hx
      have := hheight x hx
      omega
    exact ⟨.root hroot, h, fun _ _ => Iff.rfl⟩
  | succ fuel ih =>
    unfold DisjointSet.climb
    by_cases hroot : s.parentOf x = x
    · rw [if_pos hroot]
      exact ⟨.root hroot, h, fun _ _ => Iff.rfl⟩
    rw [if_neg hroot]
    obtain ⟨hforest, hsame⟩ := h.halve hroot
    set g := s.parentOf (s.parentOf x) with hg
    have hparent := parentOf_setParent (y := g) (lt_of_parentOf_ne hroot)
    have hgx : height g < height x := height_grandparent hheight hroot
    obtain ⟨hroot', hforest', hsame'⟩ := ih hforest (x := g) (by
        intro z hz
        rw [hparent] at hz ⊢
        split
        · rename_i hzx
          rw [hzx]
          exact hgx
        · rename_i hzx
          rw [if_neg hzx] at hz
          exact hheight z hz)
      (by omega)
    refine ⟨?_, hforest', fun z r => (hsame' z r).trans (hsame z r)⟩
    exact .of_parent (.of_parent ((hsame g _).mp hroot'))

/-- Finding the root of an element. -/
theorem Forest.find (h : s.Forest) (x : Nat) :
    s.HasRoot x (s.find x).1 ∧ (s.find x).2.Forest ∧
      SameRoots s (s.find x).2 ∧ (s.find x).2.size = s.size := by
  obtain ⟨height, hbound, hheight⟩ := h.exists_height
  obtain ⟨hroot, hforest, hsame⟩ := h.climb hheight (hbound x)
  exact ⟨hroot, hforest, hsame, size_climb _ _ _⟩

/-! ## Joining -/

/-- A root is hung below another. -/
theorem Forest.hang (h : s.Forest) {a b : Nat} (ha : s.parentOf a = a)
    (hb : s.parentOf b = b) (hab : a ≠ b) (hlt : a < s.size)
    (hlt' : b < s.size) (s' : DisjointSet) (hsize : s'.size = s.size)
    (hparent : ∀ z, s'.parentOf z = if z = a then b else s.parentOf z) :
    s'.Forest ∧
      ∀ x r, s.HasRoot x r → s'.HasRoot x (if r = a then b else r) := by
  classical
  obtain ⟨height, hheight⟩ := h.acyclic
  have hba : ¬ s.HasRoot b a := fun hr => hab (hr.unique (.root hb))
  -- What is below `a` is raised above `b`, so that heights fall towards the
  -- roots again.
  refine ⟨⟨?_, fun x =>
    if s.HasRoot x a then height x + height b + 1 else height x, ?_⟩, ?_⟩
  · intro x hx
    rw [hsize] at hx ⊢
    rw [hparent]
    split
    · exact hlt'
    · exact h.bound x hx
  · intro x hx
    rw [hparent] at hx ⊢
    by_cases hxa : x = a
    · subst hxa
      dsimp only
      rw [if_pos rfl, if_neg hba, if_pos (.root ha)]
      omega
    · rw [if_neg hxa] at hx ⊢
      have hlower := hheight x hx
      dsimp only
      by_cases hr : s.HasRoot x a
      · rw [if_pos hr, if_pos hr.parent]
        omega
      · rw [if_neg hr, if_neg fun hr' => hr hr'.of_parent]
        exact hlower
  · intro x r hr
    have hroot : s'.parentOf b = b := by
      rw [hparent, if_neg hab.symm, hb]
    induction hr with
    | @root x hx =>
      by_cases hxa : x = a
      · rw [if_pos hxa, hxa]
        apply HasRoot.of_parent
        rw [hparent, if_pos rfl]
        exact .root hroot
      · rw [if_neg hxa]
        exact .root (by rw [hparent, if_neg hxa, hx])
    | @step x r hx _ ih =>
      have hxa : x ≠ a := fun hxa => hx (hxa ▸ ha)
      apply HasRoot.of_parent
      rw [hparent, if_neg hxa]
      exact ih

/-- Whichever root is hung below the other, the same classes are merged. -/
theorem Forest.joined_merge (h : s.Forest) {s' : DisjointSet} {a b : Nat}
    (hab : a ≠ b)
    (hroots : ∀ x r, s.HasRoot x r → s'.HasRoot x (if r = a then b else r))
    (x y : Nat) : s'.Joined x y ↔ s.Joined x y ∨
      (s.HasRoot x a ∧ s.HasRoot y b) ∨ (s.HasRoot x b ∧ s.HasRoot y a) := by
  obtain ⟨r, hr⟩ := h.exists_root x
  obtain ⟨r', hr'⟩ := h.exists_root y
  have hx : ∀ q, s.HasRoot x q ↔ r = q := fun q =>
    ⟨hr.unique, fun heq => heq ▸ hr⟩
  have hy : ∀ q, s.HasRoot y q ↔ r' = q := fun q =>
    ⟨hr'.unique, fun heq => heq ▸ hr'⟩
  have hjoined : s.Joined x y ↔ r = r' := by
    constructor
    · rintro ⟨q, hxq, hyq⟩
      rw [hr.unique hxq, hr'.unique hyq]
    · rintro rfl
      exact ⟨r, hr, hr'⟩
  have hjoined' : s'.Joined x y ↔
      (if r = a then b else r) = (if r' = a then b else r') := by
    constructor
    · rintro ⟨q, hxq, hyq⟩
      rw [(hroots x r hr).unique hxq, (hroots y r' hr').unique hyq]
    · intro heq
      exact ⟨_, hroots x r hr, heq ▸ hroots y r' hr'⟩
  -- What is left compares roots, before and after `a` gives way to `b`.
  rw [hjoined', hjoined, hx, hx, hy, hy]
  split <;> split <;> simp_all
  all_goals grind

/-- What joining two roots keeps and changes. -/
theorem Forest.link (h : s.Forest) {a b : Nat} (ha : s.parentOf a = a)
    (hb : s.parentOf b = b) (hlt : a < s.size) (hlt' : b < s.size) :
    (s.link a b).Forest ∧ (s.link a b).size = s.size ∧
      ∀ x y, (s.link a b).Joined x y ↔ s.Joined x y ∨
        (s.HasRoot x a ∧ s.HasRoot y b) ∨ (s.HasRoot x b ∧ s.HasRoot y a) := by
  unfold DisjointSet.link
  by_cases hab : a = b
  · rw [if_pos hab]
    refine ⟨h, rfl, fun x y => ⟨.inl, ?_⟩⟩
    subst hab
    rintro (hj | ⟨hx, hy⟩ | ⟨hx, hy⟩)
    · exact hj
    · exact ⟨a, hx, hy⟩
    · exact ⟨a, hx, hy⟩
  rw [if_neg hab]
  have hup : ∀ s' : DisjointSet, s'.size = s.size →
      (∀ x, s'.parentOf x = if x = b then a else s.parentOf x) →
      s'.Forest ∧ ∀ x y, s'.Joined x y ↔ s.Joined x y ∨
        (s.HasRoot x a ∧ s.HasRoot y b) ∨
        (s.HasRoot x b ∧ s.HasRoot y a) := by
    intro s' hsize hparent
    obtain ⟨hforest, hroots⟩ :=
      h.hang hb ha (Ne.symm hab) hlt' hlt s' hsize hparent
    refine ⟨hforest, fun x y => ?_⟩
    rw [h.joined_merge (Ne.symm hab) hroots]
    exact or_congr_right or_comm
  split
  · obtain ⟨hforest, hroots⟩ := h.hang ha hb hab hlt hlt' _
      (size_setParent a b) (parentOf_setParent hlt)
    exact ⟨hforest, size_setParent a b, h.joined_merge hab hroots⟩
  · split
    · obtain ⟨hforest, hjoined⟩ :=
        hup _ (size_setParent b a) (parentOf_setParent hlt')
      exact ⟨hforest, size_setParent b a, hjoined⟩
    · -- The ranks have no part in the classes.
      obtain ⟨hforest, hjoined⟩ := hup
        { parent := s.parent.setIfInBounds b a
          rank := s.rank.setIfInBounds a (s.rankOf a + 1) }
        (size_setParent b a) (parentOf_setParent hlt')
      exact ⟨hforest, size_setParent b a, hjoined⟩

/-- What two elements are joined by: the forest after finding both roots. -/
structure Located (s : DisjointSet) (a b rootA rootB : Nat)
    (s' : DisjointSet) : Prop where
  forest : s'.Forest
  size : s'.size = s.size
  roots : SameRoots s s'
  left : s'.HasRoot a rootA
  right : s'.HasRoot b rootB

theorem Forest.located (h : s.Forest) (a b : Nat) :
    Located s a b (s.find a).1 ((s.find a).2.find b).1
      ((s.find a).2.find b).2 := by
  obtain ⟨hroot1, hforest1, hsame1, hsize1⟩ := h.find a
  obtain ⟨hroot2, hforest2, hsame2, hsize2⟩ := hforest1.find b
  have hsame : SameRoots s ((s.find a).2.find b).2 := fun x r =>
    (hsame2 x r).trans (hsame1 x r)
  exact ⟨hforest2, hsize2.trans hsize1, hsame, (hsame a _).mpr hroot1,
    (hsame2 b _).mpr hroot2⟩

/-- Joining two elements merges their classes. -/
theorem Forest.union (h : s.Forest) {a b : Nat} (ha : a < s.size)
    (hb : b < s.size) :
    (s.union a b).Forest ∧ (s.union a b).size = s.size ∧
      ∀ x y, (s.union a b).Joined x y ↔ s.Joined x y ∨
        (s.Joined x a ∧ s.Joined b y) ∨ (s.Joined x b ∧ s.Joined a y) := by
  have hfound := h.located a b
  unfold DisjointSet.union
  dsimp only
  generalize (s.find a).1 = ra, ((s.find a).2.find b).1 = rb,
    ((s.find a).2.find b).2 = s2 at *
  obtain ⟨hforest2, hsize, hsame, hra, hrb⟩ := hfound
  obtain ⟨hforest, hsize', hjoined⟩ := hforest2.link hra.parentOf_root
    hrb.parentOf_root (hra.lt hforest2 (hsize ▸ ha))
    (hrb.lt hforest2 (hsize ▸ hb))
  have hjoin : ∀ x y, s2.Joined x y ↔ s.Joined x y := by
    intro x y
    unfold Joined
    simp only [hsame x, hsame y]
  -- Finding the two roots has changed no root, so what is linked are the
  -- classes there were.
  have hwith : ∀ {c r : Nat}, s2.HasRoot c r → ∀ x,
      s2.HasRoot x r ↔ s.Joined x c := by
    intro c r hc x
    rw [← hjoin]
    constructor
    · intro hx
      exact ⟨r, hx, hc⟩
    · rintro ⟨q, hx, hcq⟩
      rwa [hc.unique hcq]
  refine ⟨hforest, hsize'.trans hsize, fun x y => ?_⟩
  rw [hjoined, hjoin, hwith hra, hwith hrb, hwith hra, hwith hrb]
  have hcomm : ∀ c, s.Joined y c ↔ s.Joined c y := fun c =>
    ⟨Joined.symm, Joined.symm⟩
  rw [hcomm, hcomm]

theorem forest_singletons (n : Nat) : (singletons n).Forest ∧
    (singletons n).size = n ∧
    ∀ x y, (singletons n).Joined x y ↔ x = y := by
  have hparent : ∀ x, (singletons n).parentOf x = x := by
    intro x
    simp only [parentOf, singletons, Array.getElem?_range]
    split <;> rfl
  have hroot : ∀ x r, (singletons n).HasRoot x r ↔ x = r := by
    intro x r
    constructor
    · intro hr
      exact (HasRoot.root (hparent x)).unique hr
    · rintro rfl
      exact .root (hparent x)
  refine ⟨⟨?_, fun _ => 0, ?_⟩, by simp [size, singletons], ?_⟩
  · intro x hx
    rwa [hparent]
  · intro x hx
    exact absurd (hparent x) hx
  · intro x y
    simp [Joined, hroot, eq_comm]

end DisjointSet

end ControlPlane
