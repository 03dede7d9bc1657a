import Mathlib

/-!
# Loops that may fail

A loop over a list stops at the first failure. If it comes to its end, every
step has succeeded, and what the loop returns is made of what the steps
return.
-/

namespace ControlPlane

universe u v

variable {ε : Type u} {α : Type*}

/-- Two steps succeed one after the other. -/
theorem bind_eq_ok_iff {β : Type*} {x : Except ε β} {γ : Type*}
    {f : β → Except ε γ} {c : γ} :
    (Except.bind x f) = .ok c ↔ ∃ b, x = .ok b ∧ f b = .ok c := by
  cases x <;> simp [Except.bind]

/-- One of two steps fails. -/
theorem bind_eq_error_iff {β : Type*} {x : Except ε β} {γ : Type*}
    {f : β → Except ε γ} {e : ε} : (Except.bind x f) = .error e ↔
      x = .error e ∨ ∃ b, x = .ok b ∧ f b = .error e := by
  cases x <;> simp [Except.bind]

theorem exists_bind_eq_ok {β : Type*} {x : Except ε β} {γ : Type*}
    {f : β → Except ε γ} (hx : ∃ b, x = .ok b) (hf : ∀ b, ∃ c, f b = .ok c) :
    ∃ c, (Except.bind x f) = .ok c := by
  obtain ⟨b, rfl⟩ := hx
  exact hf b

/-- What succeeds does so whatever is made of a failure. -/
theorem mapError_eq_ok_iff {ε' : Type*} {x : Except ε α} {f : ε → ε'}
    {a : α} : x.mapError f = .ok a ↔ x = .ok a := by
  cases x <;> simp [Except.mapError]

theorem map_eq_ok_iff {β : Type*} {x : Except ε α} {f : α → β} {b : β} :
    x.map f = .ok b ↔ ∃ a, x = .ok a ∧ f a = b := by
  cases x <;> simp [Except.map]

theorem exists_eq_error {x : Except ε α} (h : ∀ a, x ≠ .ok a) :
    ∃ e, x = .error e := by
  cases x with
  | error e => exact ⟨e, rfl⟩
  | ok a => exact absurd rfl (h a)

/-- What succeeds has its result, whatever stands in for one otherwise. -/
theorem eq_ok_getD {x : Except ε α} (hok : x.isOk = true) (y : α) :
    x = .ok (x.toOption.getD y) := by
  cases x with
  | error e => cases hok
  | ok a => rfl

/-- What holds for the elements done so far is carried through a loop that
may fail. The step is told where in the list it is. -/
theorem foldlM_ok_induction {σ : Type v} {P : List α → σ → Prop}
    {f : σ → α → Except ε σ} {xs : List α}
    (hstep : ∀ pre x post, xs = pre ++ x :: post → ∀ s s', P pre s →
      f s x = .ok s' → P (pre ++ [x]) s')
    {s s' : σ} (h : P [] s) (hok : xs.foldlM f s = .ok s') : P xs s' := by
  have hrest : ∀ (rest pre : List α) (s : σ), xs = pre ++ rest → P pre s →
      rest.foldlM f s = .ok s' → P xs s' := by
    intro rest
    induction rest with
    | nil =>
      intro pre s hxs hpre hok
      cases hok
      rw [hxs, List.append_nil]
      exact hpre
    | cons x rest ih =>
      intro pre s hxs hpre hok
      rw [List.foldlM_cons] at hok
      cases hx : f s x with
      | error e => simp [hx, bind, Except.bind] at hok
      | ok s1 =>
        rw [hx] at hok
        exact ih (pre ++ [x]) s1 (by simpa using hxs)
          (hstep pre x rest hxs s s1 hpre hx) hok
  exact hrest xs [] s rfl h hok

/-- A loop comes to its end or to a step that fails where it is. -/
theorem foldlM_cases {σ : Type v} {P : List α → σ → Prop} {Q : ε → Prop}
    {f : σ → α → Except ε σ} {xs : List α}
    (hstep : ∀ pre x post, xs = pre ++ x :: post → ∀ s, P pre s →
      (∃ s', f s x = .ok s' ∧ P (pre ++ [x]) s') ∨
        ∃ e, f s x = .error e ∧ Q e)
    {s : σ} (h : P [] s) : (∃ s', xs.foldlM f s = .ok s' ∧ P xs s') ∨
      ∃ e, xs.foldlM f s = .error e ∧ Q e := by
  have hrest : ∀ (rest pre : List α) (s : σ), xs = pre ++ rest → P pre s →
      (∃ s', rest.foldlM f s = .ok s' ∧ P xs s') ∨
        ∃ e, rest.foldlM f s = .error e ∧ Q e := by
    intro rest
    induction rest with
    | nil =>
      intro pre s hxs hpre
      rw [List.append_nil] at hxs
      exact .inl ⟨s, rfl, hxs ▸ hpre⟩
    | cons x rest ih =>
      intro pre s hxs hpre
      rw [List.foldlM_cons]
      rcases hstep pre x rest hxs s hpre with ⟨s1, hx, hnext⟩ | ⟨e, hx, he⟩
      · rw [hx]
        exact ih (pre ++ [x]) s1 (by simpa using hxs) hnext
      · rw [hx]
        exact .inr ⟨e, rfl, he⟩
  exact hrest xs [] s rfl h

/-- A loop in which every step succeeds where it is comes to its end. -/
theorem exists_foldlM_ok {σ : Type v} {P : List α → σ → Prop}
    {f : σ → α → Except ε σ} {xs : List α}
    (hstep : ∀ pre x post, xs = pre ++ x :: post → ∀ s, P pre s →
      ∃ s', f s x = .ok s' ∧ P (pre ++ [x]) s')
    {s : σ} (h : P [] s) : ∃ s', xs.foldlM f s = .ok s' ∧ P xs s' := by
  have hcases := foldlM_cases (Q := fun _ => False)
    (fun pre x post hxs s hs => .inl (hstep pre x post hxs s hs)) h
  exact hcases.resolve_right fun ⟨_, _, hfalse⟩ => hfalse

/-- A loop fails at one of its steps. -/
theorem exists_of_foldlM_eq_error {σ : Type v} {f : σ → α → Except ε σ}
    {xs : List α} {s : σ} {e : ε} (h : xs.foldlM f s = .error e) :
    ∃ s', ∃ x ∈ xs, f s' x = .error e := by
  have hstep : ∀ pre x post, xs = pre ++ x :: post → ∀ s', True →
      (∃ s1, f s' x = .ok s1 ∧ True) ∨
        ∃ e, f s' x = .error e ∧ ∃ s', ∃ x ∈ xs, f s' x = .error e := by
    intro pre x post hxs s' _
    cases hx : f s' x with
    | ok s1 => exact .inl ⟨s1, rfl, trivial⟩
    | error e => exact .inr ⟨e, rfl, s', x, by simp [hxs], hx⟩
  rcases foldlM_cases (P := fun _ _ => True) hstep (s := s) trivial with
    ⟨s', hok, -⟩ | ⟨e', herror, hfailed⟩
  · rw [hok] at h
    cases h
  · rw [herror] at h
    cases h
    exact hfailed

/-- A check of every element succeeds if it passes at each of them. -/
theorem forM_eq_ok_iff {f : α → Except ε PUnit} {xs : List α} :
    xs.forM f = .ok ⟨⟩ ↔ ∀ x ∈ xs, f x = .ok ⟨⟩ := by
  induction xs with
  | nil => simp [List.forM, pure, Except.pure]
  | cons x xs ih =>
    rw [List.forM_eq_forM, List.forM_cons, List.forall_mem_cons, ← ih]
    cases hx : f x with
    | error e => simp [bind, Except.bind]
    | ok _ => simp [bind, Except.bind]

/-- A check of every element fails, if it does, where it fails at one of
them. -/
theorem forM_cases (f : α → Except ε PUnit) (xs : List α) :
    xs.forM f = .ok ⟨⟩ ∨
      ∃ x ∈ xs, ∃ e, f x = .error e ∧ xs.forM f = .error e := by
  induction xs with
  | nil => exact .inl rfl
  | cons x xs ih =>
    rw [List.forM_eq_forM, List.forM_cons]
    cases hx : f x with
    | error e => exact .inr ⟨x, List.mem_cons_self, e, hx, rfl⟩
    | ok _ =>
      rcases ih with hok | ⟨y, hy, e, herror, hfailed⟩
      · exact .inl hok
      · exact .inr ⟨y, List.mem_cons_of_mem _ hy, e, herror, hfailed⟩

/-- Every element has been mapped, to the element of the result at its
place. -/
theorem mapM_eq_ok_iff {β : Type u} {f : α → Except ε β} {xs : List α}
    {ys : List β} :
    xs.mapM f = .ok ys ↔ List.Forall₂ (fun x y => f x = .ok y) xs ys := by
  induction xs generalizing ys with
  | nil => cases ys <;> simp [pure, Except.pure]
  | cons x xs ih =>
    rw [List.mapM_cons]
    cases hx : f x with
    | error e => cases ys <;> simp [bind, Except.bind, hx]
    | ok y =>
      cases hxs : xs.mapM f with
      | error e => cases ys <;> simp [bind, Except.bind, hx, ← ih, hxs]
      | ok rest =>
        cases ys <;> simp [bind, Except.bind, pure, Except.pure, hx, ← ih, hxs]

theorem mem_of_mapM_eq_ok {β : Type u} {f : α → Except ε β} {xs : List α}
    {ys : List β} (h : xs.mapM f = .ok ys) {y : β} :
    y ∈ ys ↔ ∃ x ∈ xs, f x = .ok y := by
  rw [mapM_eq_ok_iff] at h
  induction h with
  | nil => simp
  | cons hx _ ih => simp [hx, ih, eq_comm]

theorem exists_of_mapM_eq_ok {β : Type u} {f : α → Except ε β} {xs : List α}
    {ys : List β} (h : xs.mapM f = .ok ys) {x : α} (hx : x ∈ xs) :
    ∃ y ∈ ys, f x = .ok y := by
  rw [mapM_eq_ok_iff] at h
  induction h with
  | nil => cases hx
  | cons hy _ ih =>
    rcases List.mem_cons.mp hx with rfl | hx
    · exact ⟨_, List.mem_cons_self, hy⟩
    · obtain ⟨y, hmem, hy⟩ := ih hx
      exact ⟨y, List.mem_cons_of_mem _ hmem, hy⟩

/-- What every step keeps of its element is kept of the list. -/
theorem map_of_mapM_eq_ok {β : Type u} {γ : Type*} {f : α → Except ε β}
    {k : α → γ} {k' : β → γ} (hf : ∀ x y, f x = .ok y → k' y = k x)
    {xs : List α} {ys : List β} (h : xs.mapM f = .ok ys) :
    ys.map k' = xs.map k := by
  rw [mapM_eq_ok_iff] at h
  induction h with
  | nil => rfl
  | cons hy _ ih => rw [List.map_cons, List.map_cons, hf _ _ hy, ih]

theorem exists_mapM_eq_ok {β : Type u} {f : α → Except ε β} {xs : List α}
    (h : ∀ x ∈ xs, ∃ y, f x = .ok y) : ∃ ys, xs.mapM f = .ok ys := by
  simp only [mapM_eq_ok_iff]
  induction xs with
  | nil => exact ⟨[], .nil⟩
  | cons x xs ih =>
    obtain ⟨y, hy⟩ := h x List.mem_cons_self
    obtain ⟨ys, hys⟩ := ih fun z hz => h z (List.mem_cons_of_mem _ hz)
    exact ⟨y :: ys, .cons hy hys⟩

/-- A search ends at the first element if that is to be found. -/
theorem anyM_cons_eq_true {f : α → Except ε Bool} {x : α}
    (h : f x = .ok true) (xs : List α) : (x :: xs).anyM f = .ok true := by
  rw [List.anyM, h]
  rfl

/-- A search that found something came to an element to be found. -/
theorem exists_of_anyM_eq_ok {f : α → Except ε Bool} {xs : List α}
    (h : xs.anyM f = .ok true) : ∃ x ∈ xs, f x = .ok true := by
  induction xs with
  | nil => cases h
  | cons x xs ih =>
    obtain ⟨found, hx, h⟩ := bind_eq_ok_iff.mp h
    cases found with
    | true => exact ⟨x, List.mem_cons_self, hx⟩
    | false =>
      obtain ⟨y, hy, hfound⟩ := ih h
      exact ⟨y, List.mem_cons_of_mem _ hy, hfound⟩

/-- A search ends without a failure if no element makes it fail. -/
theorem exists_anyM_eq_ok {f : α → Except ε Bool} {xs : List α}
    (h : ∀ x ∈ xs, ∃ b, f x = .ok b) : ∃ b, xs.anyM f = .ok b := by
  induction xs with
  | nil => exact ⟨false, rfl⟩
  | cons x xs ih =>
    obtain ⟨found, hx⟩ := h x List.mem_cons_self
    rw [List.anyM, hx]
    cases found with
    | true => exact ⟨true, rfl⟩
    | false => exact ih fun y hy => h y (List.mem_cons_of_mem _ hy)

/-- A search that found nothing has come to every element. -/
theorem of_anyM_eq_ok_false {f : α → Except ε Bool} {xs : List α}
    (h : xs.anyM f = .ok false) : ∀ x ∈ xs, f x = .ok false := by
  induction xs with
  | nil => simp
  | cons x xs ih =>
    obtain ⟨found, hx, h⟩ := bind_eq_ok_iff.mp h
    cases found with
    | true => cases h
    | false => exact List.forall_mem_cons.mpr ⟨hx, ih h⟩

/-- A search that ends without a failure has found an element if there is
one. -/
theorem of_anyM_eq_ok {f : α → Except ε Bool} {xs : List α} {b : Bool}
    (h : xs.anyM f = .ok b) : b = true ↔ ∃ x ∈ xs, f x = .ok true := by
  cases b with
  | true => simpa using exists_of_anyM_eq_ok h
  | false =>
    simp only [Bool.false_eq_true, false_iff, not_exists, not_and]
    intro x hx hfound
    rw [of_anyM_eq_ok_false h x hx] at hfound
    cases hfound

end ControlPlane
