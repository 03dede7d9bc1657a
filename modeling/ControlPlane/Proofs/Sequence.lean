import Mathlib

/-!
# Lists and arrays by position

Facts about looking up, changing and cutting sequences by position that the
library does not state.
-/

namespace ControlPlane

universe u v

variable {α : Type u} {β : Type v}

/-- Looking up every position gives the list. -/
theorem filterMap_getElem?_range (xs : List α) :
    (List.range xs.length).filterMap (xs[·]?) = xs := by
  induction xs with
  | nil => rfl
  | cons x xs ih =>
    rw [List.length_cons, List.range_succ_eq_map, List.filterMap_cons,
      List.filterMap_map]
    exact congrArg _ ih

/-- What stands at every position makes up the list. -/
theorem map_getD_range (xs : List α) (x : α) :
    (List.range xs.length).map (xs.getD · x) = xs := by
  apply List.ext_getElem
  · simp
  · intro i hi hi'
    simp [hi']

/-- Following every position of a list follows its elements. -/
theorem flatMap_getElem?_range (l : List α) (f : α → List β) :
    ((List.range l.length).flatMap fun i => (l[i]?.map f).getD []) =
      l.flatMap f := by
  induction l with
  | nil => rfl
  | cons x l ih =>
    rw [List.length_cons, List.range_succ_eq_map, List.flatMap_cons,
      List.flatMap_map]
    exact congrArg _ ih

/-- What is selected from a list is collected from it. -/
theorem filter_eq_flatMap (p : α → Bool) (l : List α) :
    l.filter p = l.flatMap fun x => if p x then [x] else [] := by
  induction l with
  | nil => rfl
  | cons x l ih => cases hx : p x <;> simp [hx, ih]

/-- What a change keeps of a record holds of all records after it. -/
theorem forall_mem_modify {P : α → Prop} {xs : Array α} {i : Nat}
    {f : α → α} (h : ∀ x ∈ xs, P x) (hf : ∀ x, P x → P (f x)) :
    ∀ x ∈ xs.modify i f, P x := by
  intro x hx
  obtain ⟨j, hj⟩ := Array.mem_iff_getElem?.mp hx
  rw [Array.getElem?_modify] at hj
  split at hj
  · obtain ⟨y, hy, rfl⟩ := Option.map_eq_some_iff.mp hj
    exact hf y (h y (Array.mem_of_getElem? hy))
  · exact h x (Array.mem_of_getElem? hj)

theorem forall_mem_foldl_modify {P : α → Prop} {xs : Array α}
    {is : List Nat} {f : α → α} (h : ∀ x ∈ xs, P x) (hf : ∀ x, P x → P (f x)) :
    ∀ x ∈ is.foldl (fun xs i => xs.modify i f) xs, P x := by
  induction is generalizing xs with
  | nil => exact h
  | cons i is ih => exact ih (forall_mem_modify h hf)

theorem forall_mem_push {P : α → Prop} {xs : Array α} {y : α}
    (h : ∀ x ∈ xs, P x) (hy : P y) : ∀ x ∈ xs.push y, P x := by
  intro x hx
  rcases Array.mem_push.mp hx with hx | rfl
  · exact h x hx
  · exact hy

/-- Changing the elements at several positions, each named once. -/
theorem getElem?_foldl_modify {xs : Array α} {f : α → α} {is : List Nat}
    (his : is.Nodup) (j : Nat) :
    (is.foldl (fun xs i => xs.modify i f) xs)[j]? =
      if j ∈ is then xs[j]?.map f else xs[j]? := by
  induction is generalizing xs with
  | nil => simp
  | cons i is ih =>
    obtain ⟨hi, his⟩ := List.nodup_cons.mp his
    rw [List.foldl_cons, ih his, Array.getElem?_modify]
    by_cases hij : i = j
    · subst hij
      simp [hi]
    · simp [hij, Ne.symm hij]

@[simp] theorem size_foldl_modify {xs : Array α} {f : α → α}
    {is : List Nat} :
    (is.foldl (fun xs i => xs.modify i f) xs).size = xs.size := by
  induction is generalizing xs with
  | nil => rfl
  | cons i is ih => rw [List.foldl_cons, ih, Array.size_modify]

theorem zipIdx_range (n : Nat) :
    (List.range n).zipIdx = (List.range n).map fun k => (k, k) := by
  rw [List.zipIdx_eq_zip_range', List.length_range, ← List.range_eq_range',
    List.zip_eq_zipWith, List.zipWith_self]

/-- Only the positions of a numbered list are used. -/
theorem flatMap_zipIdx_snd (xs : List α) (f : Nat → List β) :
    (xs.zipIdx.flatMap fun x => f x.2) =
      (List.range xs.length).flatMap f := by
  rw [List.range_eq_range', ← List.zipIdx_map_snd, List.flatMap_map]

/-- Only the elements of a numbered list are used. -/
theorem flatMap_zipIdx_fst (xs : List α) (f : α → List β) :
    (xs.zipIdx.flatMap fun x => f x.1) = xs.flatMap f := by
  conv_rhs => rw [← List.zipIdx_map_fst 0 xs, List.flatMap_map]

/-- A function that is defined on every element of a list, with what is known
of its values by place. -/
theorem map_filterMap_eq_zipIdx {γ : Type*} {f : α → Option β} {g : β → γ}
    {h : Nat → α → γ} {xs : List α} (n : Nat)
    (hxs : ∀ k x, xs[k]? = some x → ∃ y, f x = some y ∧ g y = h (n + k) x) :
    (xs.filterMap f).length = xs.length ∧
      (xs.filterMap f).map g = (xs.zipIdx n).map fun x => h x.2 x.1 := by
  induction xs generalizing n with
  | nil => simp
  | cons x xs ih =>
    obtain ⟨y, hy, hg⟩ := hxs 0 x rfl
    obtain ⟨hlength, hmap⟩ := ih (n + 1) fun k x' hx' => by
      obtain ⟨y', hy', hg'⟩ := hxs (k + 1) x' hx'
      exact ⟨y', hy', by rw [hg', Nat.add_assoc, Nat.add_comm 1 k]⟩
    rw [List.filterMap_cons_some hy, List.zipIdx_cons]
    simp [hlength, hmap, hg]

/-- A function that is defined on every element keeps places. -/
theorem getElem?_filterMap {f : α → Option β} {xs : List α}
    (hxs : ∀ x ∈ xs, ∃ y, f x = some y) (k : Nat) :
    (xs.filterMap f)[k]? = xs[k]?.bind f := by
  induction xs generalizing k with
  | nil => rfl
  | cons x xs ih =>
    obtain ⟨⟨y, hy⟩, hxs⟩ := List.forall_mem_cons.mp hxs
    rw [List.filterMap_cons_some hy]
    cases k with
    | zero => exact hy.symm
    | succ k => exact ih hxs k

/-- Elements are selected by what stands beside them. -/
theorem map_fst_filter_zip {xs : List α} {ys : List β} {p : α → Bool}
    {q : β → Bool} (hlength : xs.length ≤ ys.length)
    (h : ∀ x y, (x, y) ∈ xs.zip ys → q y = p x) :
    ((xs.zip ys).filter fun z => q z.2).map Prod.fst = xs.filter p := by
  have hsame : ((xs.zip ys).filter fun z => q z.2) =
      (xs.zip ys).filter (p ∘ Prod.fst) :=
    List.filter_congr fun z hz => h z.1 z.2 hz
  rw [hsame, ← List.filter_map, List.map_fst_zip hlength]

/-- Consecutive cuts of a list make up its beginning. -/
theorem flatMap_take_drop (xs : List α) {f : Nat → Nat} (h0 : f 0 = 0)
    (hmono : ∀ i, f i ≤ f (i + 1)) (n : Nat) :
    ((List.range n).flatMap fun i =>
      (xs.drop (f i)).take (f (i + 1) - f i)) = xs.take (f n) := by
  induction n with
  | zero => simp [h0]
  | succ n ih =>
    have hsum : f (n + 1) = f n + (f (n + 1) - f n) := by
      have := hmono n
      omega
    rw [List.range_succ, List.flatMap_append, ih, List.flatMap_singleton]
    conv_rhs => rw [hsum, List.take_add]

/-- The only element with a property is the one that is found. -/
theorem find?_eq_some_of_unique {p : α → Bool} {xs : List α} {x : α}
    (hx : x ∈ xs) (hpx : p x) (hunique : ∀ y ∈ xs, p y → y = x) :
    xs.find? p = some x := by
  cases hfind : xs.find? p with
  | none => exact absurd hpx (List.find?_eq_none.mp hfind x hx)
  | some y =>
    rw [hunique y (List.mem_of_find?_eq_some hfind) (List.find?_some hfind)]

/-- An element of only one of several lists tells the list. -/
theorem eq_of_nodup_flatMap {f : α → List β} {xs : List α}
    (h : (xs.flatMap f).Nodup) {x y : α} (hx : x ∈ xs) (hy : y ∈ xs) {z : β}
    (hzx : z ∈ f x) (hzy : z ∈ f y) : x = y := by
  have hsymm : Std.Symm (Function.onFun List.Disjoint f) :=
    ⟨fun _ _ hd => hd.symm⟩
  by_contra hne
  exact (List.nodup_flatMap.mp h).2.forall hx hy hne hzx hzy

/-- An element of one of several disjoint lists is in the one at a single
position. -/
theorem existsUnique_position {f : α → List β} {xs : List α}
    (h : xs.Pairwise fun x y => List.Disjoint (f x) (f y)) {z : β}
    (hz : ∃ x ∈ xs, z ∈ f x) : ∃! k : Nat, ∃ x, xs[k]? = some x ∧ z ∈ f x := by
  obtain ⟨x, hx, hzx⟩ := hz
  obtain ⟨k, hk⟩ := List.mem_iff_getElem?.mp hx
  refine ⟨k, ⟨x, hk, hzx⟩, ?_⟩
  rintro l ⟨y, hl, hzy⟩
  obtain ⟨hk', rfl⟩ := List.getElem?_eq_some_iff.mp hk
  obtain ⟨hl', rfl⟩ := List.getElem?_eq_some_iff.mp hl
  have hdisjoint := List.pairwise_iff_getElem.mp h
  by_contra hne
  rcases Nat.lt_or_gt_of_ne hne with hlt | hlt
  · exact hdisjoint l k hl' hk' hlt hzy hzx
  · exact hdisjoint k l hk' hl' hlt hzx hzy

/-- Only one element has a key that is not repeated. -/
theorem countP_key_eq_one {κ : Type*} [DecidableEq κ] {f : α → κ}
    {xs : List α} (h : (xs.map f).Nodup) {x : α} (hx : x ∈ xs) :
    xs.countP (f · = f x) = 1 := by
  have hcount := List.count_eq_one_of_mem h (List.mem_map_of_mem hx)
  rw [List.count, List.countP_map] at hcount
  rw [← hcount]
  apply List.countP_congr
  intro y _
  simp

/-- Lists under different keys, one after the other: those with one of the
keys are found together. -/
theorem filter_flatMap_key {κ : Type*} [DecidableEq κ] {key : α → κ}
    {f : α → List β} {keyOf : β → κ} {xs : List α}
    (hxs : (xs.map key).Nodup) (hf : ∀ x ∈ xs, ∀ y ∈ f x, keyOf y = key x)
    {x : α} (hx : x ∈ xs) : (xs.flatMap f).filter (keyOf · = key x) = f x := by
  induction xs with
  | nil => cases hx
  | cons w xs ih =>
    rw [List.map_cons, List.nodup_cons] at hxs
    obtain ⟨hw, hxs⟩ := hxs
    obtain ⟨hfw, hfs⟩ := List.forall_mem_cons.mp hf
    rw [List.flatMap_cons, List.filter_append]
    have hother : ∀ u ∈ xs, key u ≠ key w := fun u hu h =>
      hw (List.mem_map.mpr ⟨u, hu, h⟩)
    -- The list looked for is the first one, and then nothing behind it has its
    -- key, or it is one behind that, and then the first one has another key.
    rcases List.mem_cons.mp hx with rfl | hx
    · have hall : (f x).filter (keyOf · = key x) = f x :=
        List.filter_eq_self.mpr fun y hy => by simp [hfw y hy]
      have hnone : (xs.flatMap f).filter (keyOf · = key x) = [] := by
        rw [List.filter_eq_nil_iff]
        intro y hy
        obtain ⟨u, hu, hy⟩ := List.mem_flatMap.mp hy
        simp [hfs u hu y hy, hother u hu]
      rw [hall, hnone, List.append_nil]
    · have hnone : (f w).filter (keyOf · = key x) = [] := by
        rw [List.filter_eq_nil_iff]
        intro y hy
        simp [hfw y hy, (hother x hx).symm]
      rw [hnone, List.nil_append]
      exact ih hxs hfs hx

end ControlPlane
