import Mathlib
import ControlPlane.Ascending
import ControlPlane.Proofs.Sequence

/-!
# Classes of mutually related numbers

What a search for components returns, and what a partition into regions
returns, are the classes of numbers that are related both ways. The order of
the classes and of their members does not matter for that, and classes of
classes can be flattened.
-/

namespace ControlPlane

/-! ## Ascending lists of numbers -/

theorem pairwise_lt_ascending (l : List Nat) :
    (ascending l).Pairwise (· < ·) :=
  (pairwise_ascending l).imp Nat.compare_eq_lt.mp

theorem pairwise_lt_of_mem_ascending {α : Type*} {f : α → List Nat}
    {xs : List α} {c : List Nat}
    (hc : c ∈ ascending (xs.map fun x => ascending (f x))) :
    c.Pairwise (· < ·) := by
  obtain ⟨x, -, rfl⟩ := List.mem_map.mp (mem_ascending.mp hc)
  exact pairwise_lt_ascending (f x)

theorem min?_of_ascending {a : Nat} {l : List Nat}
    (h : (a :: l).Pairwise (· < ·)) : (a :: l).min? = some a := by
  rw [List.min?_eq_some_iff]
  refine ⟨List.mem_cons_self, fun b hb => ?_⟩
  rcases List.mem_cons.mp hb with rfl | hb
  · exact Nat.le_refl _
  · exact Nat.le_of_lt ((List.pairwise_cons.mp h).1 b hb)

/-- Of two disjoint lists, the one that comes first starts with less. -/
theorem head_lt_of_compare {a b : Nat} {l m : List Nat}
    (hdisjoint : List.Disjoint (a :: l) (b :: m))
    (h : compare (a :: l) (b :: m) = .lt) : a < b := by
  have hne : a ≠ b := fun hab =>
    hdisjoint List.mem_cons_self (hab ▸ List.mem_cons_self)
  rw [List.compare_cons_cons] at h
  rcases Nat.lt_trichotomy a b with hlt | heq | hgt
  · exact hlt
  · exact absurd heq hne
  · rw [Nat.compare_eq_gt.mpr hgt] at h
    cases h

/-- The smallest member of one list is below the smallest of another. -/
def StartsBefore (l m : List Nat) : Prop :=
  ∃ i j, l.min? = some i ∧ m.min? = some j ∧ i < j

/-- Of two disjoint ascending lists, the one that comes first starts with
less. -/
theorem startsBefore_of_compare {l m : List Nat} (hl : l.Pairwise (· < ·))
    (hm : m.Pairwise (· < ·)) (hlne : l ≠ []) (hmne : m ≠ [])
    (hdisjoint : List.Disjoint l m) (h : compare l m = .lt) :
    StartsBefore l m := by
  cases l with
  | nil => exact absurd rfl hlne
  | cons a l =>
    cases m with
    | nil => exact absurd rfl hmne
    | cons b m =>
      exact ⟨a, b, min?_of_ascending hl, min?_of_ascending hm,
        head_lt_of_compare hdisjoint h⟩

namespace Region

/-- The classes of mutually related numbers below `n`, each once and each
listed without repetition. -/
structure Classes (n : Nat) (R : Nat → Nat → Prop) (classes : List (List Nat)) :
    Prop where
  covers : ∀ v, (∃ c ∈ classes, v ∈ c) ↔ v < n
  nonempty : ∀ c ∈ classes, c ≠ []
  nodup : ∀ c ∈ classes, c.Nodup
  related : ∀ c ∈ classes, ∀ v ∈ c, ∀ w, w ∈ c ↔ R v w ∧ R w v
  disjoint : classes.Pairwise List.Disjoint

/-- Lists that share out the numbers with a property: every one of them is in
a single list, and once. -/
structure Cover (P : Nat → Prop) (parts : List (List Nat)) : Prop where
  covers : ∀ v, (∃ p ∈ parts, v ∈ p) ↔ P v
  nonempty : ∀ p ∈ parts, p ≠ []
  nodup : ∀ p ∈ parts, p.Nodup
  disjoint : parts.Pairwise List.Disjoint

namespace Cover

variable {P : Nat → Prop} {parts : List (List Nat)}

theorem of_mem (h : Cover P parts) {p : List Nat} (hp : p ∈ parts) {v : Nat}
    (hv : v ∈ p) : P v :=
  (h.covers v).mp ⟨p, hp, hv⟩

/-- If the numbers stand for disjoint lists, then these are shared out with
them. -/
theorem flatMap (h : Cover P parts) {members : Nat → List Nat}
    (hnonempty : ∀ c, P c → members c ≠ [])
    (hnodup : ∀ c, P c → (members c).Nodup)
    (hunique : ∀ c, P c → ∀ d, P d → ∀ v, v ∈ members c → v ∈ members d →
      c = d) :
    Cover (fun v => ∃ c, P c ∧ v ∈ members c)
      (parts.map (·.flatMap members)) where
  covers := by
    intro v
    simp only [List.mem_map]
    constructor
    · rintro ⟨_, ⟨p, hp, rfl⟩, hv⟩
      obtain ⟨c, hc, hv⟩ := List.mem_flatMap.mp hv
      exact ⟨c, h.of_mem hp hc, hv⟩
    · rintro ⟨c, hc, hv⟩
      obtain ⟨p, hp, hcp⟩ := (h.covers c).mpr hc
      exact ⟨_, ⟨p, hp, rfl⟩, List.mem_flatMap.mpr ⟨c, hcp, hv⟩⟩
  nonempty := by
    intro q hq
    obtain ⟨p, hp, rfl⟩ := List.mem_map.mp hq
    obtain ⟨c, hc⟩ := List.exists_mem_of_ne_nil p (h.nonempty p hp)
    obtain ⟨v, hv⟩ :=
      List.exists_mem_of_ne_nil _ (hnonempty c (h.of_mem hp hc))
    exact List.ne_nil_of_mem (List.mem_flatMap.mpr ⟨c, hc, hv⟩)
  nodup := by
    intro q hq
    obtain ⟨p, hp, rfl⟩ := List.mem_map.mp hq
    rw [List.nodup_flatMap]
    refine ⟨fun c hc => hnodup c (h.of_mem hp hc), ?_⟩
    refine (h.nodup p hp).imp_of_mem ?_
    intro c d hc hd hne v hvc hvd
    exact hne (hunique c (h.of_mem hp hc) d (h.of_mem hp hd) v hvc hvd)
  disjoint := by
    rw [List.pairwise_map]
    refine h.disjoint.imp_of_mem ?_
    intro p q hp hq hdisjoint v hvp hvq
    obtain ⟨c, hc, hvc⟩ := List.mem_flatMap.mp hvp
    obtain ⟨d, hd, hvd⟩ := List.mem_flatMap.mp hvq
    have hcd := hunique c (h.of_mem hp hc) d (h.of_mem hq hd) v hvc hvd
    exact hdisjoint hc (hcd ▸ hd)

/-- The elements of a list are shared out with their positions. -/
theorem getElem? {xs : List Nat} (h : Cover (· < xs.length) parts)
    (hxs : xs.Nodup) :
    Cover (· ∈ xs) (parts.map (·.filterMap (xs[·]?))) := by
  have hunique : ∀ x < xs.length, ∀ y < xs.length, ∀ v,
      v ∈ xs[x]?.toList → v ∈ xs[y]?.toList → x = y := by
    intro x hx y _ v hv hv'
    rw [Option.mem_toList] at hv hv'
    exact (List.getElem?_inj hx hxs).mp (hv.trans hv'.symm)
  have hcover : Cover (fun v => ∃ x < xs.length, v ∈ xs[x]?.toList)
      (parts.map (·.flatMap fun x => xs[x]?.toList)) :=
    h.flatMap (fun x hx => by simp [hx])
      (fun x _ => Option.toList_nodup xs[x]?) hunique
  simp only [List.filterMap_eq_flatMap_toList]
  refine ⟨fun v => (hcover.covers v).trans ?_, hcover.nonempty, hcover.nodup,
    hcover.disjoint⟩
  rw [List.mem_iff_getElem?]
  refine exists_congr fun x => ?_
  rw [Option.mem_toList]
  exact and_iff_right_of_imp fun hx => (List.getElem?_eq_some_iff.mp hx).1

end Cover

/-- What can be reached along successors. -/
def Reaches (succ : Nat → List Nat) : Nat → Nat → Prop :=
  Relation.ReflTransGen fun v w => w ∈ succ v

/-- What successors cannot leave cannot be left at all. -/
theorem Reaches.keeps {succ : Nat → List Nat} {P : Nat → Prop}
    (hP : ∀ v, P v → ∀ w ∈ succ v, P w) {v w : Nat}
    (h : Reaches succ v w) (hv : P v) : P w := by
  induction h with
  | refl => exact hv
  | tail _ hw ih => exact hP _ ih _ hw

/-! ## Ascending lists -/

/-- Putting different elements into ascending order is a permutation. -/
theorem ascending_perm {α : Type*} [Ord α] [Std.TransOrd α]
    [Std.LawfulEqOrd α] {xs : List α} (h : xs.Nodup) :
    (ascending xs).Perm xs := by
  have hnodup : (ascending xs).Nodup :=
    (pairwise_ascending xs).imp fun {x y} hlt heq => by
      have hself : compare x x = .eq := Std.ReflCmp.compare_self
      rw [← heq, hself] at hlt
      cases hlt
  exact (List.perm_ext_iff_of_nodup hnodup h).mpr fun _ => mem_ascending

namespace Classes

variable {n : Nat} {R : Nat → Nat → Prop} {classes : List (List Nat)}

theorem nodup_classes (h : Classes n R classes) : classes.Nodup := by
  refine h.disjoint.imp_of_mem ?_
  rintro c d hc - hdisjoint rfl
  obtain ⟨v, hv⟩ := List.exists_mem_of_ne_nil c (h.nonempty c hc)
  exact hdisjoint hv hv

/-- Every number is in a single class. -/
theorem existsUnique (h : Classes n R classes) {v : Nat} (hv : v < n) :
    ∃! k : Nat, ∃ c, classes[k]? = some c ∧ v ∈ c :=
  existsUnique_position (f := id) h.disjoint ((h.covers v).mpr hv)

/-- Two numbers share a class if they are related both ways. -/
theorem exists_shared_iff (h : Classes n R classes) {v w : Nat} (hv : v < n) :
    (∃ c ∈ classes, v ∈ c ∧ w ∈ c) ↔ R v w ∧ R w v := by
  constructor
  · rintro ⟨c, hc, hvc, hwc⟩
    exact (h.related c hc v hvc w).mp hwc
  · intro hvw
    obtain ⟨c, hc, hvc⟩ := (h.covers v).mpr hv
    exact ⟨c, hc, hvc, (h.related c hc v hvc w).mpr hvw⟩

/-- The order of the classes does not matter. -/
theorem perm (h : Classes n R classes) {classes' : List (List Nat)}
    (hp : classes.Perm classes') : Classes n R classes' where
  covers := by
    intro v
    rw [← h.covers v]
    simp only [hp.mem_iff]
  nonempty c hc := h.nonempty c (hp.mem_iff.mpr hc)
  nodup c hc := h.nodup c (hp.mem_iff.mpr hc)
  related c hc := h.related c (hp.mem_iff.mpr hc)
  disjoint := hp.pairwise h.disjoint fun hd => hd.symm

/-- The order of the members does not matter. -/
theorem map_perm (h : Classes n R classes) {f : List Nat → List Nat}
    (hf : ∀ c ∈ classes, (f c).Perm c) : Classes n R (classes.map f) where
  covers := by
    intro v
    rw [← h.covers v]
    simp only [List.mem_map]
    constructor
    · rintro ⟨_, ⟨c, hc, rfl⟩, hv⟩
      exact ⟨c, hc, (hf c hc).mem_iff.mp hv⟩
    · rintro ⟨c, hc, hv⟩
      exact ⟨f c, ⟨c, hc, rfl⟩, (hf c hc).mem_iff.mpr hv⟩
  nonempty := by
    intro d hd
    obtain ⟨c, hc, rfl⟩ := List.mem_map.mp hd
    intro hnil
    exact h.nonempty c hc (hnil ▸ hf c hc).nil_eq.symm
  nodup := by
    intro d hd
    obtain ⟨c, hc, rfl⟩ := List.mem_map.mp hd
    exact (hf c hc).nodup_iff.mpr (h.nodup c hc)
  related := by
    intro d hd v hv w
    obtain ⟨c, hc, rfl⟩ := List.mem_map.mp hd
    rw [(hf c hc).mem_iff] at hv ⊢
    exact h.related c hc v hv w
  disjoint := by
    rw [List.pairwise_map]
    refine h.disjoint.imp_of_mem ?_
    intro c d hc hd hdisjoint v hvc hvd
    exact hdisjoint ((hf c hc).mem_iff.mp hvc) ((hf d hd).mem_iff.mp hvd)

/-- Classes can be put into ascending order, inside and outside. -/
theorem ascending (h : Classes n R classes) :
    Classes n R (ascending (classes.map ascending)) := by
  have hmap := h.map_perm (f := ControlPlane.ascending) fun c hc =>
    ascending_perm (h.nodup c hc)
  exact hmap.perm (ascending_perm hmap.nodup_classes).symm

/-- Ascending classes in ascending order come in the order of their smallest
members. -/
theorem startsBefore (h : Classes n R classes)
    (hmembers : ∀ c ∈ classes, c.Pairwise (· < ·))
    (hclasses : classes.Pairwise (compare · · = .lt)) :
    classes.Pairwise StartsBefore := by
  refine (h.disjoint.and hclasses).imp_of_mem ?_
  intro c d hc hd hcd
  exact startsBefore_of_compare (hmembers c hc) (hmembers d hd)
    (h.nonempty c hc) (h.nonempty d hd) hcd.1 hcd.2

theorem flatten_perm (h : Classes n R classes) :
    classes.flatten.Perm (List.range n) := by
  have hnodup : classes.flatten.Nodup :=
    List.nodup_flatten.mpr ⟨h.nodup, h.disjoint⟩
  rw [List.perm_ext_iff_of_nodup hnodup List.nodup_range]
  intro v
  rw [List.mem_flatten, h.covers v, List.mem_range]

/-- Nonempty lists with one element each on average have one element. -/
theorem length_eq_one_of_sum {L : List (List Nat)} (hne : ∀ c ∈ L, c ≠ [])
    (hsum : (L.map List.length).sum ≤ L.length) : ∀ c ∈ L, c.length = 1 := by
  induction L with
  | nil => simp
  | cons c L ih =>
    have hc : 0 < c.length :=
      List.length_pos_iff.mpr (hne c List.mem_cons_self)
    have hL : ∀ d ∈ L, d ≠ [] := fun d hd => hne d (List.mem_cons_of_mem _ hd)
    have hle : L.length ≤ (L.map List.length).sum := by
      clear ih hsum hne
      induction L with
      | nil => simp
      | cons d L ih =>
        have hd : 0 < d.length :=
          List.length_pos_iff.mpr (hL d List.mem_cons_self)
        have := ih fun e he => hL e (List.mem_cons_of_mem _ he)
        simp only [List.length_cons, List.map_cons, List.sum_cons]
        omega
    simp only [List.map_cons, List.sum_cons, List.length_cons] at hsum
    intro d hd
    rcases List.mem_cons.mp hd with rfl | hd
    · omega
    · exact ih hL (by omega) d hd

/-- As many classes as numbers leave every number alone. -/
theorem eq_of_related (h : Classes n R classes) (hlen : classes.length = n)
    {v w : Nat} (hv : v < n) (hvw : R v w) (hwv : R w v) : v = w := by
  have hlength := h.flatten_perm.length_eq
  rw [List.length_flatten, List.length_range] at hlength
  obtain ⟨c, hc, hvc⟩ := (h.covers v).mpr hv
  have hone := length_eq_one_of_sum h.nonempty (by omega) c hc
  obtain ⟨x, rfl⟩ := List.length_eq_one_iff.mp hone
  have hwc := (h.related [x] hc v hvc w).mpr ⟨hvw, hwv⟩
  rw [List.mem_singleton] at hvc hwc
  rw [hvc, hwc]

/-- The classes are then the single numbers. -/
theorem singletons (h : Classes n R classes) (hlen : classes.length = n) :
    Classes n R ((List.range n).map ([·])) where
  covers := by
    intro v
    simp
  nonempty := by simp
  nodup := by simp
  related := by
    intro c hc v hv w
    obtain ⟨x, hx, rfl⟩ := List.mem_map.mp hc
    rw [List.mem_singleton] at hv ⊢
    subst hv
    have hlt := List.mem_range.mp hx
    constructor
    · rintro rfl
      obtain ⟨c, hc, hw⟩ := (h.covers w).mpr hlt
      exact (h.related c hc w hw w).mp hw
    · rintro ⟨hvw, hwv⟩
      exact (h.eq_of_related hlen hlt hvw hwv).symm
  disjoint := by
    rw [List.pairwise_map]
    exact List.nodup_range.imp fun hne => by simpa using hne.symm

theorem cover (h : Classes n R classes) : Cover (· < n) classes :=
  ⟨h.covers, h.nonempty, h.nodup, h.disjoint⟩

/-- Classes of classes are classes, if the classes are related as their
members are. -/
theorem flatten {m : Nat} {S : Nat → Nat → Prop} {parts : List (List Nat)}
    (h : Classes m S parts) {members : Nat → List Nat}
    (hnonempty : ∀ c < m, members c ≠ [])
    (hnodup : ∀ c < m, (members c).Nodup)
    (hcovers : ∀ v, (∃ c < m, v ∈ members c) ↔ v < n)
    (hunique : ∀ c < m, ∀ d < m, ∀ v, v ∈ members c → v ∈ members d → c = d)
    (hrelated : ∀ c < m, ∀ d < m, ∀ v ∈ members c, ∀ w ∈ members d,
      (S c d ↔ R v w))
    (hbound : ∀ v w, v < n → R v w → w < n) :
    Classes n R (parts.map (·.flatMap members)) := by
  have hcover := h.cover.flatMap hnonempty hnodup hunique
  refine ⟨fun v => (hcover.covers v).trans (hcovers v), hcover.nonempty,
    hcover.nodup, ?related, hcover.disjoint⟩
  case related =>
    intro q hq v hv w
    obtain ⟨p, hp, rfl⟩ := List.mem_map.mp hq
    obtain ⟨c, hc, hvc⟩ := List.mem_flatMap.mp hv
    have hcm := h.cover.of_mem hp hc
    constructor
    · intro hw
      obtain ⟨d, hd, hwd⟩ := List.mem_flatMap.mp hw
      have hdm := h.cover.of_mem hp hd
      obtain ⟨hcd, hdc⟩ := (h.related p hp c hc d).mp hd
      exact ⟨(hrelated c hcm d hdm v hvc w hwd).mp hcd,
        (hrelated d hdm c hcm w hwd v hvc).mp hdc⟩
    · rintro ⟨hvw, hwv⟩
      -- What is related to `v` is a member of some class, and then the classes
      -- are related.
      have hw := hbound v w ((hcovers v).mp ⟨c, hcm, hvc⟩) hvw
      obtain ⟨d, hdm, hwd⟩ := (hcovers w).mpr hw
      have hd := (h.related p hp c hc d).mpr
        ⟨(hrelated c hcm d hdm v hvc w hwd).mpr hvw,
          (hrelated d hdm c hcm w hwd v hvc).mpr hwv⟩
      exact List.mem_flatMap.mpr ⟨d, hd, hwd⟩

end Classes

end Region

end ControlPlane
