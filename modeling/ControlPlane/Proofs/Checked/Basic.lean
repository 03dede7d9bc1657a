import Mathlib
import ControlPlane.Error
import ControlPlane.Proofs.Loops

/-!
# Checked runs

A lookup that finds nothing has a default in this library, and a loop ends
when its steps are used up. A checked run of the same program stops in these
places instead. It does what the plain run does as long as nothing is looked
up that is not there, and that is what the checked runs are for: where one is
equal to the plain run, the plain run has used no default.
-/

namespace ControlPlane

namespace Checked

/-- What a checked run stops at. -/
inductive Stop where
  /-- An error that the program returns itself. -/
  | refused (e : Error)
  /-- A position or a key that is not there. -/
  | outOfRange
  /-- A counter that would go below zero. -/
  | belowZero
  /-- A division by zero. -/
  | zeroDivisor
  /-- A loop that is not over when its steps are used up. -/
  | unfinished
deriving DecidableEq, Repr

variable {α β σ : Type}

/-- What was found where something has to be. -/
def reach : Option α → Except Stop α
  | some x => .ok x
  | none => .error .outOfRange

/-- What the program returns itself. -/
def returned : Except Error α → Except Stop α
  | .ok x => .ok x
  | .error e => .error (.refused e)

/-- What is collected from all elements of a list, one after the other. -/
def collect (xs : List α) (f : α → Except Stop (List β)) :
    Except Stop (List β) := do
  return (← xs.mapM f).flatten

/-! ## Accesses -/

@[simp] theorem reach_some (x : α) : reach (some x) = .ok x := rfl

/-- There is something at every position of an array. -/
theorem reach_array {xs : Array α} {i : Nat} (h : i < xs.size) :
    reach xs[i]? = .ok xs[i] := by
  simp [h]

theorem reach_list {xs : List α} {i : Nat} (h : i < xs.length) :
    reach xs[i]? = .ok xs[i] := by
  simp [h]

@[simp] theorem returned_ok (x : α) : returned (.ok x) = .ok x := rfl

@[simp] theorem returned_error (e : Error) :
    returned (.error e : Except Error α) = .error (.refused e) := rfl

@[simp] theorem ok_bind {ε : Type} (x : α) (f : α → Except ε β) :
    (Except.ok x >>= f) = f x := rfl

@[simp] theorem error_bind {ε : Type} (e : ε) (f : α → Except ε β) :
    (Except.error e >>= f) = .error e := rfl

@[simp] theorem pure_eq_ok {ε : Type} (x : α) :
    (pure x : Except ε α) = .ok x := rfl

@[simp] theorem throw_eq_error {ε : Type} (e : ε) :
    (throw e : Except ε α) = .error e := rfl

/-- If one step is as in the plain run, and so is what follows if the plain
run gets there, both runs are the same. -/
theorem bind_eq_returned {x : Except Stop α} {y : Except Error α}
    {f : α → Except Stop β} {g : α → Except Error β} (hxy : x = returned y)
    (hfg : ∀ a, y = .ok a → f a = returned (g a)) :
    (x >>= f) = returned (y >>= g) := by
  subst hxy
  cases y with
  | error e => rfl
  | ok a => exact hfg a rfl

/-! ## Loops -/

/-- A checked loop is the plain one if each step is, where it is taken. -/
theorem foldlM_eq_returned {P : σ → Prop} {f : σ → α → Except Stop σ}
    {g : σ → α → Except Error σ} {l : List α}
    (hstep : ∀ x ∈ l, ∀ s, P s → f s x = returned (g s x))
    (hkeep : ∀ x ∈ l, ∀ s, P s → ∀ s', g s x = .ok s' → P s') {s : σ}
    (h : P s) : l.foldlM f s = returned (l.foldlM g s) := by
  induction l generalizing s with
  | nil => rfl
  | cons x xs ih =>
    rw [List.foldlM_cons, List.foldlM_cons]
    refine bind_eq_returned (hstep x List.mem_cons_self s h) fun s' hs' => ?_
    exact ih (fun y hy => hstep y (List.mem_cons_of_mem _ hy))
      (fun y hy => hkeep y (List.mem_cons_of_mem _ hy))
      (hkeep x List.mem_cons_self s h s' hs')

/-- A checked loop whose steps all succeed. -/
theorem foldlM_eq_ok {P : σ → Prop} {f : σ → α → Except Stop σ}
    {g : σ → α → σ} {l : List α}
    (hstep : ∀ x ∈ l, ∀ s, P s → f s x = .ok (g s x) ∧ P (g s x)) {s : σ}
    (h : P s) : l.foldlM f s = .ok (l.foldl g s) ∧ P (l.foldl g s) := by
  induction l generalizing s with
  | nil => exact ⟨rfl, h⟩
  | cons x xs ih =>
    obtain ⟨hx, hnext⟩ := hstep x List.mem_cons_self s h
    rw [List.foldlM_cons, hx, ok_bind]
    exact ih (fun y hy => hstep y (List.mem_cons_of_mem _ hy)) hnext

theorem mapM_eq_ok {ε : Type} {f : α → Except ε β} {g : α → β} {l : List α}
    (h : ∀ x ∈ l, f x = .ok (g x)) : l.mapM f = .ok (l.map g) := by
  induction l with
  | nil => rfl
  | cons x xs ih =>
    simp [h x List.mem_cons_self,
      ih fun y hy => h y (List.mem_cons_of_mem _ hy)]

theorem collect_eq_ok {f : α → Except Stop (List β)} {g : α → List β}
    {l : List α} (h : ∀ x ∈ l, f x = .ok (g x)) :
    collect l f = .ok (l.flatMap g) := by
  simp [collect, mapM_eq_ok h, List.flatMap_def]

/-- Where everything is reached, nothing is left out. -/
theorem mapM_eq_ok_filterMap {f : α → Except Stop β} {g : α → Option β}
    {l : List α} (h : ∀ x ∈ l, ∃ y, g x = some y ∧ f x = .ok y) :
    l.mapM f = .ok (l.filterMap g) := by
  induction l with
  | nil => rfl
  | cons x xs ih =>
    obtain ⟨⟨y, hy, hf⟩, hxs⟩ := List.forall_mem_cons.mp h
    simp [hy, hf, ih hxs]

theorem collect_reach {γ : Type} {f : α → Option γ}
    {b : γ → Except Stop (List β)} {g : γ → List β} {l : List α}
    (h : ∀ x ∈ l, ∃ y, f x = some y ∧ b y = .ok (g y)) :
    collect l (fun x => do b (← reach (f x))) =
      .ok ((l.filterMap f).flatMap g) := by
  rw [collect_eq_ok (g := fun x => ((f x).map g).getD []) fun x hx => by
    obtain ⟨y, hy, hb⟩ := h x hx
    simp [hy, hb]]
  induction l with
  | nil => rfl
  | cons x xs ih =>
    obtain ⟨⟨y, hy, -⟩, hxs⟩ := List.forall_mem_cons.mp h
    simpa [hy] using ih hxs

theorem anyM_eq_ok {f : α → Except Stop Bool} {g : α → Bool} {l : List α}
    (h : ∀ x ∈ l, f x = .ok (g x)) : l.anyM f = .ok (l.any g) := by
  induction l with
  | nil => rfl
  | cons x xs ih =>
    rw [List.anyM, h x List.mem_cons_self, ok_bind, List.any_cons]
    cases g x with
    | true => rfl
    | false => simpa using ih fun y hy => h y (List.mem_cons_of_mem _ hy)

theorem findM?_eq_ok {f : α → Except Stop Bool} {g : α → Bool} {l : List α}
    (h : ∀ x ∈ l, f x = .ok (g x)) : l.findM? f = .ok (l.find? g) := by
  induction l with
  | nil => rfl
  | cons x xs ih =>
    rw [List.findM?, h x List.mem_cons_self, ok_bind, List.find?_cons]
    cases g x with
    | true => rfl
    | false => simpa using ih fun y hy => h y (List.mem_cons_of_mem _ hy)

end Checked

end ControlPlane
