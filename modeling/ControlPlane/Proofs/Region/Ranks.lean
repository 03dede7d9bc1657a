import Mathlib
import ControlPlane.Proofs.Checked.Partition

/-!
# Ranks of disjoint sets

A root of rank `r` stands for at least `2 ^ r` elements: its rank only grows
when a tree of the same rank is hung below it. So among fewer than `2 ^ 64`
elements no rank gets to 64, far below what fits into its byte, and comparing
ranks as bytes is comparing them as numbers. With that, what a partition
answers after any calls is known: two elements have one root iff the unions
made so far connect them.
-/

namespace ControlPlane

namespace DisjointSet

variable {s : DisjointSet}

/-! ## Weights -/

/-- The elements that a root stands for. -/
def under (s : DisjointSet) (r : Nat) : Set Nat :=
  {x | x < s.size ∧ s.HasRoot x r}

/-- A forest whose roots stand for as many elements as their ranks ask. -/
structure Weighted (s : DisjointSet) : Prop where
  forest : s.Forest
  size : s.rank.size = s.size
  /-- Ranks rise towards the root. -/
  rises : ∀ x, s.parentOf x ≠ x → s.rankOf x < s.rankOf (s.parentOf x)
  weight : ∀ r < s.size, s.parentOf r = r →
    2 ^ (s.rankOf r).toNat ≤ (s.under r).ncard

theorem finite_under (s : DisjointSet) (r : Nat) : (s.under r).Finite :=
  (Set.finite_Iio s.size).subset fun _ hx => hx.1

theorem ncard_under_le (s : DisjointSet) (r : Nat) :
    (s.under r).ncard ≤ s.size :=
  (Set.ncard_le_ncard (fun _ hx => hx.1) (Set.finite_Iio s.size)).trans_eq
    (Set.ncard_Iio_nat s.size)

theorem SameRoots.under_eq {s' : DisjointSet} (h : SameRoots s s')
    (hsize : s'.size = s.size) (r : Nat) : s'.under r = s.under r := by
  ext x
  simp only [under, Set.mem_ofPred_eq, hsize, h x r]

theorem SameRoots.parentOf_eq {s' : DisjointSet} (h : SameRoots s s') {r : Nat}
    (hr : s'.parentOf r = r) : s.parentOf r = r :=
  ((h r r).mp (.root hr)).parentOf_root

namespace Weighted

theorem rank_le_root (h : s.Weighted) {x r : Nat} (hr : s.HasRoot x r) :
    s.rankOf x ≤ s.rankOf r := by
  induction hr with
  | root _ => exact UInt8.le_refl _
  | step hne _ ih => exact UInt8.le_trans (UInt8.le_of_lt (h.rises _ hne)) ih

theorem rank_lt (h : s.Weighted) (hsize : s.size < 2 ^ 64) {x : Nat}
    (hx : x < s.size) : (s.rankOf x).toNat < 64 := by
  obtain ⟨r, hr⟩ := h.forest.exists_root x
  have hweight := h.weight r (hr.lt h.forest hx) hr.parentOf_root
  have hpow : 2 ^ (s.rankOf r).toNat < 2 ^ 64 :=
    (hweight.trans (ncard_under_le s r)).trans_lt hsize
  have hroot : (s.rankOf r).toNat < 64 :=
    (Nat.pow_lt_pow_iff_right Nat.one_lt_two).mp hpow
  exact (UInt8.le_iff_toNat_le.mp (h.rank_le_root hr)).trans_lt hroot

end Weighted

theorem weighted_singletons (n : Nat) : (singletons n).Weighted := by
  obtain ⟨hforest, hsize, -⟩ := forest_singletons n
  have hrank : ∀ x, (singletons n).rankOf x = 0 := by
    intro x
    simp only [rankOf, singletons, Array.getElem?_replicate]
    split <;> rfl
  have hparent : ∀ x, (singletons n).parentOf x = x := by
    intro x
    simp only [parentOf, singletons, Array.getElem?_range]
    split <;> rfl
  refine ⟨hforest, by simp [singletons, size], ?_, ?_⟩
  · intro x hx
    exact absurd (hparent x) hx
  · intro r hr hroot
    rw [hrank]
    exact (Set.ncard_pos (finite_under _ r)).mpr ⟨r, hr, .root hroot⟩

/-! ## Halving and climbing -/

theorem Weighted.halve (h : s.Weighted) {x : Nat} (hx : s.parentOf x ≠ x) :
    (s.setParent x (s.parentOf (s.parentOf x))).Weighted := by
  obtain ⟨hforest, hsame⟩ := h.forest.halve hx
  have hparent := parentOf_setParent
    (y := s.parentOf (s.parentOf x)) (lt_of_parentOf_ne hx)
  have hrank : ∀ z, (s.setParent x (s.parentOf (s.parentOf x))).rankOf z =
      s.rankOf z := fun _ => rfl
  refine ⟨hforest, h.size.trans (size_setParent _ _).symm, ?_, ?_⟩
  · intro z hz
    rw [hparent] at hz
    rw [hparent, hrank, hrank]
    by_cases hzx : z = x
    · subst hzx
      rw [if_pos rfl]
      -- The parent is a root itself, or its rank is below that of its parent.
      by_cases hp : s.parentOf (s.parentOf z) = s.parentOf z
      · rw [hp]
        exact h.rises z hx
      · exact UInt8.lt_trans (h.rises z hx) (h.rises _ hp)
    · rw [if_neg hzx] at hz ⊢
      exact h.rises z hz
  · intro r hr hroot
    rw [hrank, hsame.under_eq (size_setParent _ _)]
    exact h.weight r (by simpa using hr) (hsame.parentOf_eq hroot)

theorem Weighted.climb (h : s.Weighted) (fuel x : Nat) :
    (climb fuel s x).2.Weighted := by
  induction fuel generalizing s x with
  | zero => exact h
  | succ fuel ih =>
    unfold DisjointSet.climb
    by_cases hx : s.parentOf x = x
    · rw [if_pos hx]
      exact h
    · rw [if_neg hx]
      exact ih (h.halve hx) _

theorem rank_climb (fuel : Nat) (s : DisjointSet) (x : Nat) :
    (s.climb fuel x).2.rank = s.rank := by
  induction fuel generalizing s x with
  | zero => rfl
  | succ fuel ih =>
    unfold DisjointSet.climb
    split
    · rfl
    · rw [ih]
      rfl

/-! ## Hanging a root below another -/

/-- A root is hung below another one of a rank that is then higher. -/
theorem Weighted.hang (h : s.Weighted) {a b : Nat} {rank : UInt8}
    (ha : s.parentOf a = a) (hb : s.parentOf b = b) (hab : a ≠ b)
    (hlt : a < s.size) (hlt' : b < s.size) {s' : DisjointSet}
    (hsize : s'.size = s.size) (hranks : s'.rank.size = s.rank.size)
    (hparent : ∀ z, s'.parentOf z = if z = a then b else s.parentOf z)
    (hrank : ∀ z, s'.rankOf z = if z = b then rank else s.rankOf z)
    (hbelow : s.rankOf a < rank) (hgrown : s.rankOf b ≤ rank)
    (hweight : 2 ^ rank.toNat ≤ (s.under a).ncard + (s.under b).ncard) :
    s'.Weighted := by
  obtain ⟨hforest, hroots⟩ :=
    h.forest.hang ha hb hab hlt hlt' s' hsize hparent
  have hkeeps : ∀ r, r ≠ a → s.under r ⊆ s'.under r := by
    rintro r hr x ⟨hx, hxr⟩
    have hroot := hroots x r hxr
    rw [if_neg hr] at hroot
    exact ⟨hx.trans_eq hsize.symm, hroot⟩
  have hjoins : s.under a ∪ s.under b ⊆ s'.under b := by
    rintro x (⟨hx, hxa⟩ | hxb)
    · have hroot := hroots x a hxa
      rw [if_pos rfl] at hroot
      exact ⟨hx.trans_eq hsize.symm, hroot⟩
    · exact hkeeps b hab.symm hxb
  have hdisjoint : Disjoint (s.under a) (s.under b) := by
    rw [Set.disjoint_left]
    rintro x ⟨-, hxa⟩ ⟨-, hxb⟩
    exact hab (hxa.unique hxb)
  refine ⟨hforest, hranks.trans (h.size.trans hsize.symm), ?_, ?_⟩
  · intro x hx
    rw [hparent] at hx ⊢
    rw [hrank, hrank]
    -- The parent of `a` has a higher rank now, and the rank of `b` has not got
    -- lower for what was below it.
    by_cases hxa : x = a
    · subst hxa
      rwa [if_pos rfl, if_pos rfl, if_neg hab]
    · rw [if_neg hxa] at hx ⊢
      have hxb : x ≠ b := fun heq => hx (heq ▸ hb)
      have hrises := h.rises x hx
      rw [if_neg hxb]
      split
      · rename_i hpb
        exact UInt8.lt_of_lt_of_le (hpb ▸ hrises) hgrown
      · exact hrises
  · intro r hr hroot
    rw [hsize] at hr
    have hra : r ≠ a := by
      rintro rfl
      rw [hparent, if_pos rfl] at hroot
      exact hab hroot.symm
    rw [hparent, if_neg hra] at hroot
    rw [hrank]
    -- What `a` and `b` stood for, `b` stands for alone. No other root has lost
    -- an element.
    by_cases hrb : r = b
    · subst hrb
      rw [if_pos rfl]
      calc 2 ^ rank.toNat ≤ (s.under a).ncard + (s.under r).ncard := hweight
        _ = (s.under a ∪ s.under r).ncard :=
          (Set.ncard_union_eq hdisjoint (finite_under s a)
            (finite_under s r)).symm
        _ ≤ (s'.under r).ncard :=
          Set.ncard_le_ncard hjoins (finite_under s' r)
    · rw [if_neg hrb]
      exact (h.weight r hr hroot).trans
        (Set.ncard_le_ncard (hkeeps r hra) (finite_under s' r))

/-! ## Joining -/

/-- A rank was kept, or has grown by one as a number. -/
def Counted (s s' : DisjointSet) : Prop :=
  ∀ x, (s'.rankOf x).toNat = (s.rankOf x).toNat ∨
    (s'.rankOf x).toNat = (s.rankOf x).toNat + 1

theorem rankOf_setIfInBounds {parent : Array Nat} {a : Nat} {rank : UInt8}
    (ha : a < s.rank.size) (z : Nat) :
    rankOf ⟨parent, s.rank.setIfInBounds a rank⟩ z =
      if z = a then rank else s.rankOf z := by
  simp only [rankOf, Array.getElem?_setIfInBounds]
  by_cases hz : a = z
  · subst hz
    simp [ha]
  · simp [hz, Ne.symm hz]

section Link

variable (h : s.Weighted) {a b : Nat} (ha : s.parentOf a = a)
  (hb : s.parentOf b = b) (hlt : a < s.size) (hlt' : b < s.size)
include h ha hb hlt hlt'

/-- A root of a lower rank is hung below one that keeps its rank. -/
theorem Weighted.hangLower (hbelow : s.rankOf a < s.rankOf b) :
    (s.setParent a b).Weighted ∧ Counted s (s.setParent a b) := by
  have hab : a ≠ b := by
    rintro rfl
    exact UInt8.lt_irrefl _ hbelow
  have hrank : ∀ z, (s.setParent a b).rankOf z =
      if z = b then s.rankOf b else s.rankOf z := by
    intro z
    split
    · rename_i hzb
      rw [hzb]
      rfl
    · rfl
  have hweight : 2 ^ (s.rankOf b).toNat ≤
      (s.under a).ncard + (s.under b).ncard :=
    (h.weight b hlt' hb).trans (Nat.le_add_left _ _)
  exact ⟨h.hang ha hb hab hlt hlt' (size_setParent a b) rfl
    (parentOf_setParent hlt) hrank hbelow (UInt8.le_refl _) hweight,
    fun _ => .inl rfl⟩

/-- Of two roots of one rank, the one that stays a root gets the next rank. -/
theorem Weighted.hangEqual (hsize : s.size < 2 ^ 64) (hab : a ≠ b)
    (heq : s.rankOf b = s.rankOf a) {s' : DisjointSet}
    (hs' : s' = ⟨s.parent.setIfInBounds b a,
      s.rank.setIfInBounds a (s.rankOf a + 1)⟩) :
    s'.Weighted ∧ Counted s s' := by
  -- No rank gets to 64, so adding one does not wrap.
  have hgrown : (s.rankOf a + 1).toNat = (s.rankOf a).toNat + 1 := by
    have hrank := h.rank_lt hsize hlt
    rw [UInt8.toNat_add, UInt8.toNat_one]
    omega
  have hbelow : s.rankOf a < s.rankOf a + 1 := by
    rw [UInt8.lt_iff_toNat_lt, hgrown]
    exact Nat.lt_succ_self _
  have hrank : ∀ z, s'.rankOf z =
      if z = a then s.rankOf a + 1 else s.rankOf z := by
    rw [hs']
    exact rankOf_setIfInBounds (h.size.symm ▸ hlt)
  have hweight : 2 ^ (s.rankOf a + 1).toNat ≤
      (s.under b).ncard + (s.under a).ncard := by
    calc 2 ^ (s.rankOf a + 1).toNat
        = 2 ^ (s.rankOf b).toNat + 2 ^ (s.rankOf a).toNat := by
          rw [hgrown, heq, Nat.pow_succ, Nat.mul_two]
      _ ≤ (s.under b).ncard + (s.under a).ncard :=
          Nat.add_le_add (h.weight b hlt' hb) (h.weight a hlt ha)
  have hsizes : s'.size = s.size ∧ s'.rank.size = s.rank.size := by
    rw [hs']
    exact ⟨size_setParent b a, Array.size_setIfInBounds⟩
  have hparent : ∀ z, s'.parentOf z = if z = b then a else s.parentOf z := by
    rw [hs']
    exact parentOf_setParent hlt'
  refine ⟨h.hang hb ha hab.symm hlt' hlt hsizes.1 hsizes.2 hparent hrank
    (heq ▸ hbelow) (UInt8.le_of_lt hbelow) hweight, fun z => ?_⟩
  rw [hrank]
  split
  · rename_i hza
    exact .inr (hza ▸ hgrown)
  · exact .inl rfl

theorem Weighted.link (hsize : s.size < 2 ^ 64) :
    (s.link a b).Weighted ∧ Counted s (s.link a b) := by
  unfold DisjointSet.link
  by_cases hab : a = b
  · rw [if_pos hab]
    exact ⟨h, fun _ => .inl rfl⟩
  rw [if_neg hab]
  by_cases hbelow : s.rankOf a < s.rankOf b
  · rw [if_pos hbelow]
    exact h.hangLower ha hb hlt hlt' hbelow
  rw [if_neg hbelow]
  by_cases habove : s.rankOf b < s.rankOf a
  · rw [if_pos habove]
    exact h.hangLower hb ha hlt' hlt habove
  rw [if_neg habove]
  have heq : s.rankOf b = s.rankOf a :=
    UInt8.le_antisymm (UInt8.not_lt.mp hbelow) (UInt8.not_lt.mp habove)
  exact h.hangEqual ha hb hlt hlt' hsize hab heq rfl

end Link

theorem Weighted.union (h : s.Weighted) (hsize : s.size < 2 ^ 64) {a b : Nat}
    (ha : a < s.size) (hb : b < s.size) :
    (s.union a b).Weighted ∧ Counted s (s.union a b) := by
  have hfound := h.forest.located a b
  have hweighted : ((s.find a).2.find b).2.Weighted :=
    (h.climb s.size a).climb _ b
  have hrank : ((s.find a).2.find b).2.rank = s.rank :=
    (rank_climb _ _ b).trans (rank_climb _ s a)
  unfold DisjointSet.union
  dsimp only
  generalize (s.find a).1 = ra, ((s.find a).2.find b).1 = rb,
    ((s.find a).2.find b).2 = s2 at *
  obtain ⟨hforest2, hsize2, -, hra, hrb⟩ := hfound
  obtain ⟨hlinked, hcounted⟩ := hweighted.link
    hra.parentOf_root hrb.parentOf_root (hra.lt hforest2 (hsize2 ▸ ha))
    (hrb.lt hforest2 (hsize2 ▸ hb)) (hsize2 ▸ hsize)
  refine ⟨hlinked, fun x => ?_⟩
  have hold : s2.rankOf x = s.rankOf x := by rw [rankOf, rankOf, hrank]
  rw [← hold]
  exact hcounted x

/-! ## Calls -/

/-- A call to a partition. -/
inductive Call where
  | find (x : Nat)
  | union (a b : Nat)

/-- The call is about elements below a bound. -/
def Call.Below (n : Nat) : Call → Prop
  | find x => x < n
  | union a b => a < n ∧ b < n

/-- The partition after a call. -/
def Call.run (s : DisjointSet) : Call → DisjointSet
  | find x => (s.find x).2
  | union a b => s.union a b

/-- The partition of the numbers below `n` after some calls. -/
def after (n : Nat) (calls : List Call) : DisjointSet :=
  calls.foldl Call.run (singletons n)

/-- The unions among some calls connect two elements. -/
def Connected (calls : List Call) : Nat → Nat → Prop :=
  Relation.EqvGen fun a b => .union a b ∈ calls

/-- What holds of a partition after some calls. -/
structure Reached (n : Nat) (calls : List Call) (s : DisjointSet) : Prop where
  weighted : s.Weighted
  size : s.size = n
  joined : ∀ x y, s.Joined x y ↔ Connected calls x y

section Reached

variable {n : Nat} {calls : List Call}

theorem reached_singletons (n : Nat) : Reached n [] (singletons n) := by
  obtain ⟨-, hsize, hjoined⟩ := forest_singletons n
  refine ⟨weighted_singletons n, hsize, fun x y => (hjoined x y).trans ?_⟩
  exact (Region.eqvGen_of_forall_not (by simp) x y).symm

theorem Reached.find (h : Reached n calls s) (x : Nat) :
    Reached n (calls ++ [.find x]) (s.find x).2 := by
  obtain ⟨-, -, hsame, hsize⟩ := h.weighted.forest.find x
  refine ⟨h.weighted.climb s.size x, hsize.trans h.size, fun a b => ?_⟩
  have hunions : (fun a b => Call.union a b ∈ calls ++ [.find x]) =
      fun a b => .union a b ∈ calls := by
    simp
  rw [Connected, hunions, ← Connected, ← h.joined]
  exact exists_congr fun r => and_congr (hsame a r) (hsame b r)

theorem Reached.union (h : Reached n calls s) (hn : n < 2 ^ 64) {a b : Nat}
    (ha : a < n) (hb : b < n) :
    Reached n (calls ++ [.union a b]) (s.union a b) := by
  have hsize := h.size
  subst hsize
  obtain ⟨-, hsize, hjoined⟩ := h.weighted.forest.union ha hb
  refine ⟨(h.weighted.union hn ha hb).1, hsize, fun x y => ?_⟩
  simp only [hjoined, h.joined]
  refine (Region.eqvGen_insert (fun x y => ?_) x y).symm
  simp [eq_comm]

theorem Reached.run (h : Reached n calls s) (hn : n < 2 ^ 64) {c : Call}
    (hc : c.Below n) : Reached n (calls ++ [c]) (c.run s) := by
  cases c with
  | find x => exact h.find x
  | union a b => exact h.union hn hc.1 hc.2

theorem reached_after (hn : n < 2 ^ 64) (hcalls : ∀ c ∈ calls, c.Below n) :
    Reached n calls (after n calls) := by
  induction calls using List.reverseRecOn with
  | nil => exact reached_singletons n
  | append_singleton calls c ih =>
    have hbefore := ih fun d hd => hcalls d (List.mem_append_left _ hd)
    rw [after, List.foldl_append]
    exact hbefore.run hn (hcalls c (by simp))

end Reached

/-! ## Answers -/

/-- What a partition of the numbers below `n` answers after some calls. -/
structure Answers (n : Nat) (calls : List Call) (s : DisjointSet) : Prop where
  /-- The search for a root ends, and looks up nothing that is not there. -/
  find : ∀ x < n, Checked.find s x = .ok (s.find x)
  union : ∀ a < n, ∀ b < n, Checked.union s a b = .ok (s.union a b)
  /-- Two elements have one root iff the unions connect them. -/
  connected : ∀ a < n, ∀ b < n,
    (s.find a).1 = (s.find b).1 ↔ Connected calls a b
  /-- Finding a root changes no root. -/
  kept : ∀ x < n, ∀ a < n, ((s.find x).2.find a).1 = (s.find a).1
  /-- A root of rank `r` has at least `2 ^ r` elements in its set. -/
  weight : ∀ r < n, (s.find r).1 = r →
    2 ^ (s.rankOf r).toNat ≤ {x | x < n ∧ (s.find x).1 = r}.ncard
  rank_lt : ∀ x < n, (s.rankOf x).toNat < 64
  /-- A rank that grows is the next number, and not zero again. -/
  counted : ∀ a < n, ∀ b < n, Counted s (s.union a b)

theorem Forest.hasRoot_iff (h : s.Forest) {x r : Nat} :
    s.HasRoot x r ↔ (s.find x).1 = r := by
  obtain ⟨hroot, -⟩ := h.find x
  exact ⟨hroot.unique, fun heq => heq ▸ hroot⟩

theorem Forest.find_eq_iff (h : s.Forest) {x y : Nat} :
    (s.find x).1 = (s.find y).1 ↔ s.Joined x y := by
  simp only [Joined, h.hasRoot_iff]
  constructor
  · intro heq
    exact ⟨_, heq, rfl⟩
  · rintro ⟨r, hx, hy⟩
    exact hx.trans hy.symm

/-- Two elements have one root iff the unions made so far connect them, and
no rank gets to 64. -/
theorem answers_after {n : Nat} (hn : n < 2 ^ 64) {calls : List Call}
    (hcalls : ∀ c ∈ calls, c.Below n) : Answers n calls (after n calls) := by
  have h := reached_after hn hcalls
  generalize after n calls = s at h
  obtain ⟨hweighted, rfl, hjoined⟩ := h
  have hforest := hweighted.forest
  refine ⟨fun x hx => Checked.find_eq_ok hforest hx, fun a ha b hb => ?_,
    fun a _ b _ => hforest.find_eq_iff.trans (hjoined a b),
    fun x _ a _ => ?_, fun r hr hroot => ?_,
    fun x hx => hweighted.rank_lt hn hx,
    fun a ha b hb => (hweighted.union hn ha hb).2⟩
  · exact (Checked.union_eq_ok ⟨hforest, rfl, hweighted.size⟩ ha hb).1
  · obtain ⟨-, hforest', hsame, -⟩ := hforest.find x
    exact hforest'.hasRoot_iff.mp
      ((hsame a _).mpr (hforest.hasRoot_iff.mpr rfl))
  · have hunder : s.under r = {x | x < s.size ∧ (s.find x).1 = r} := by
      simp only [under, hforest.hasRoot_iff]
    rw [← hunder]
    exact hweighted.weight r hr
      (hforest.hasRoot_iff.mpr hroot).parentOf_root

/-- Two pairs are united, and then with each other through their second
elements. -/
def pairedCalls : List Call :=
  [.union 0 1, .union 3 4, .find 4, .union 1 4]

theorem answers_after_pairedCalls :
    (5 < 2 ^ 64 ∧ ∀ c ∈ pairedCalls, c.Below 5) ∧
    Answers 5 pairedCalls (after 5 pairedCalls) ∧
    ((after 5 pairedCalls).find 0).1 = 0 ∧
    ((after 5 pairedCalls).find 3).1 = 0 ∧
    ((after 5 pairedCalls).find 2).1 = 2 ∧
    (after 5 pairedCalls).rankOf 0 = 2 := by
  have hbelow : ∀ c ∈ pairedCalls, c.Below 5 := by
    simp [pairedCalls, Call.Below]
  exact ⟨⟨by decide, hbelow⟩, answers_after (by decide) hbelow,
    by decide +kernel, by decide +kernel, by decide +kernel,
    by decide +kernel⟩

end DisjointSet

end ControlPlane
