import Mathlib
import ControlPlane.Ascending
import ControlPlane.Explore

/-!
# Search finds all there is

A search follows each element that it finds once. With as many steps as
there are elements to find, it ends with everything that successors lead to,
and with nothing else.
-/

namespace ControlPlane

namespace Search

universe u

variable {α : Type u} [Ord α] [Std.TransOrd α] [Std.LawfulEqOrd α]

theorem mem_insert {seen : Std.TreeSet α} {x z : α} :
    z ∈ seen.insert x ↔ z = x ∨ z ∈ seen := by
  rw [Std.TreeSet.mem_insert, Std.LawfulEqCmp.compare_eq_iff_eq, eq_comm]

/-! ## Finding several elements -/

theorem mem_seen_foldl_find {ys : List α} {s : Search α} {z : α} :
    z ∈ (ys.foldl find s).seen ↔ z ∈ ys ∨ z ∈ s.seen := by
  induction ys generalizing s with
  | nil => simp
  | cons y ys ih =>
    rw [List.foldl_cons, ih, List.mem_cons, find]
    split
    · rename_i hy
      refine ⟨fun h => ?_, ?_⟩
      · rcases h with h | h
        · exact .inl (.inr h)
        · exact .inr h
      · rintro ((rfl | h) | h)
        · exact .inr hy
        · exact .inl h
        · exact .inr h
    · rw [mem_insert]
      tauto

/-- Pending is what was pending and what is new. -/
theorem mem_pending_foldl_find {ys : List α} {s : Search α} {z : α} :
    z ∈ (ys.foldl find s).pending ↔
      z ∈ s.pending ∨ (z ∈ ys ∧ z ∉ s.seen) := by
  induction ys generalizing s with
  | nil => simp
  | cons y ys ih =>
    rw [List.foldl_cons, ih, List.mem_cons, find]
    split
    · rename_i hy
      refine or_congr_right (and_congr_left fun hz => ⟨.inr, ?_⟩)
      rintro (rfl | h)
      · exact absurd hy hz
      · exact h
    · rename_i hy
      rw [mem_insert, List.mem_cons]
      by_cases hzy : z = y
      · subst hzy
        simp [hy]
      · simp [hzy]

/-- How many elements are left: those pending, and those not yet seen. -/
def remaining (elements : List α) (s : Search α) : Nat :=
  s.pending.length + elements.countP (· ∉ s.seen)

theorem remaining_find_le {elements : List α} {s : Search α} {x : α}
    (hx : x ∈ elements) :
    (s.find x).remaining elements ≤ s.remaining elements := by
  rw [find]
  split
  · exact Nat.le_refl _
  · rename_i hnew
    -- Among the elements not yet seen, `x` is seen from now on.
    have hlt : elements.countP (· ∉ s.seen.insert x) <
        elements.countP (· ∉ s.seen) := by
      have hsame : elements.countP (· ∉ s.seen.insert x) =
          (elements.filter (· ∉ s.seen)).countP (· ∉ s.seen.insert x) := by
        rw [List.countP_filter]
        congr 1
        funext y
        simp only [mem_insert, ← Bool.decide_and, decide_eq_decide]
        tauto
      rw [hsame, List.countP_eq_length_filter (l := elements),
        List.countP_lt_length_iff]
      exact ⟨x, List.mem_filter.mpr ⟨hx, by simpa using hnew⟩,
        by simp⟩
    unfold remaining
    rw [List.length_cons]
    show _ + elements.countP (· ∉ s.seen.insert x) ≤ _
    omega

theorem remaining_foldl_find_le {elements ys : List α} {s : Search α}
    (hys : ∀ y ∈ ys, y ∈ elements) :
    (ys.foldl find s).remaining elements ≤ s.remaining elements := by
  induction ys generalizing s with
  | nil => exact Nat.le_refl _
  | cons y ys ih =>
    obtain ⟨hy, hys⟩ := List.forall_mem_cons.mp hys
    exact (ih hys).trans (remaining_find_le hy)

/-! ## The invariant -/

/-- One or more successors lead from one element to another. -/
def Follows (next : α → List α) : α → α → Prop :=
  Relation.TransGen fun x y => y ∈ next x

/-- All that a search has come upon is followed or pending, and nothing else
has been seen. -/
structure Complete (next : α → List α) (starts : List α)
    (known : Std.TreeSet α) (s : Search α) : Prop where
  followed : ∀ x, x ∈ starts ∨ x ∈ s.seen →
    x ∈ s.pending ∨ ∀ y ∈ next x, y ∈ s.seen
  pending : ∀ x ∈ s.pending, x ∈ starts ∨ x ∈ s.seen
  mem_seen : ∀ x ∈ known, x ∈ s.seen
  found : ∀ x ∈ s.seen, x ∈ known ∨ ∃ y ∈ starts, Follows next y x

section Run

variable {next : α → List α} {starts : List α} {known : Std.TreeSet α}

omit [Std.TransOrd α] [Std.LawfulEqOrd α] in
theorem complete_start (hknown : ∀ x ∈ known, x ∈ starts) :
    Complete next starts known ⟨starts, known⟩ where
  followed x hx := .inl (hx.elim id (hknown x))
  pending _ hx := .inl hx
  mem_seen _ hx := hx
  found _ hx := .inl hx

/-- Following one element keeps the invariant. -/
theorem Complete.follow {s : Search α} (h : Complete next starts known s)
    (hknown : ∀ x ∈ known, x ∈ starts) {x : α} {rest : List α}
    (hs : s.pending = x :: rest) :
    Complete next starts known
      ((next x).foldl find { s with pending := rest }) := by
  refine ⟨?_, ?_, ?_, ?_⟩
  · intro z hz
    simp only [mem_seen_foldl_find, mem_pending_foldl_find] at hz ⊢
    -- All of what `x` leads to has been found now. Any other element was found
    -- before, or just now and is pending.
    by_cases hzx : z = x
    · subst hzx
      exact .inr fun y hy => .inl hy
    · by_cases hseen : z ∈ starts ∨ z ∈ s.seen
      · rcases h.followed z hseen with hpending | hnext
        · rw [hs, List.mem_cons] at hpending
          exact .inl (.inl (hpending.resolve_left hzx))
        · exact .inr fun y hy => .inr (hnext y hy)
      · rw [not_or] at hseen
        rcases hz with hz | hz | hz
        · exact absurd hz hseen.1
        · exact .inl (.inr ⟨hz, hseen.2⟩)
        · exact absurd hz hseen.2
  · intro z hz
    rw [mem_pending_foldl_find] at hz
    rw [mem_seen_foldl_find]
    rcases hz with hz | ⟨hz, -⟩
    · exact (h.pending z (hs ▸ List.mem_cons_of_mem _ hz)).imp_right .inr
    · exact .inr (.inl hz)
  · intro z hz
    exact mem_seen_foldl_find.mpr (.inr (h.mem_seen z hz))
  · intro z hz
    rcases mem_seen_foldl_find.mp hz with hz | hz
    · -- What leads to `x` leads on to `z`.
      right
      have hstart : ∀ y ∈ starts, y = x → ∃ y ∈ starts, Follows next y z :=
        fun y hy hyx => ⟨y, hy, .single (hyx ▸ hz)⟩
      rcases h.pending x (hs ▸ List.mem_cons_self) with hx | hx
      · exact hstart x hx rfl
      · rcases h.found x hx with hx | ⟨y, hy, hyx⟩
        · exact hstart x (hknown x hx) rfl
        · exact ⟨y, hy, hyx.tail hz⟩
    · exact h.found z hz

/-- With enough steps, nothing is pending in the end. -/
theorem complete_run {elements : List α} {fuel : Nat}
    (hknown : ∀ x ∈ known, x ∈ starts)
    (hclosed : ∀ x, x ∈ starts ∨ x ∈ elements →
      ∀ y ∈ next x, y ∈ elements) {s : Search α}
    (h : Complete next starts known s)
    (hseen : ∀ x ∈ s.seen, x ∈ starts ∨ x ∈ elements)
    (hfuel : s.remaining elements ≤ fuel) :
    Complete next starts known (run next fuel s) ∧
      (run next fuel s).pending = [] := by
  -- By induction on the steps left. Following an element uses up one of them;
  -- what it leads to was counted before it was found.
  induction fuel generalizing s with
  | zero =>
    have hlength : s.pending.length = 0 := by
      rw [remaining] at hfuel
      omega
    exact ⟨h, List.eq_nil_of_length_eq_zero hlength⟩
  | succ fuel ih =>
    rw [run]
    split
    · rename_i hs
      exact ⟨h, hs⟩
    · rename_i x rest hs
      have hx : x ∈ starts ∨ x ∈ elements :=
        (h.pending x (hs ▸ List.mem_cons_self)).elim .inl (hseen x)
      refine ih (h.follow hknown hs) ?_ ?_
      · intro z hz
        rcases mem_seen_foldl_find.mp hz with hz | hz
        · exact .inr (hclosed x hx z hz)
        · exact hseen z hz
      · have hle := remaining_foldl_find_le (s := { s with pending := rest })
          (hclosed x hx)
        have hpop : s.remaining elements =
            remaining elements { s with pending := rest } + 1 := by
          simp only [remaining, hs, List.length_cons]
          omega
        omega

omit [Std.TransOrd α] [Std.LawfulEqOrd α] in
/-- What has been seen once nothing is pending. -/
theorem Complete.mem_seen_iff {s : Search α}
    (h : Complete next starts known s) (hpending : s.pending = []) {x : α} :
    x ∈ s.seen ↔ x ∈ known ∨ ∃ y ∈ starts, Follows next y x := by
  have hnext : ∀ z, z ∈ starts ∨ z ∈ s.seen → ∀ y ∈ next z, y ∈ s.seen := by
    intro z hz
    refine (h.followed z hz).resolve_left ?_
    rw [hpending]
    exact List.not_mem_nil
  refine ⟨h.found x, ?_⟩
  rintro (hx | ⟨y, hy, hyx⟩)
  · exact h.mem_seen x hx
  · induction hyx with
    | single hz => exact hnext y (.inl hy) _ hz
    | tail _ hz ih => exact hnext _ (.inr ih) _ hz

end Run

/-! ## In any order -/

/-- One pending element is followed, whichever it is, and what is new comes
anywhere among those pending. -/
inductive Step (next : α → List α) : Search α → Search α → Prop where
  | follow {s : Search α} {x : α} {rest pending : List α}
    (hx : s.pending.Perm (x :: rest))
    (hpending : pending.Perm
      ((next x).foldl find { s with pending := rest }).pending) :
    Step next s { pending, seen :=
      ((next x).foldl find { s with pending := rest }).seen }

section Step

variable {next : α → List α} {starts : List α} {known : Std.TreeSet α}
  {s s' : Search α}

omit [Std.TransOrd α] [Std.LawfulEqOrd α] in
/-- The order of what is pending does not matter. -/
theorem Complete.perm (h : Complete next starts known s) {pending : List α}
    (hperm : pending.Perm s.pending) :
    Complete next starts known { s with pending } where
  followed x hx := (h.followed x hx).imp_left hperm.mem_iff.mpr
  pending x hx := h.pending x (hperm.mem_iff.mp hx)
  mem_seen := h.mem_seen
  found := h.found

theorem Complete.step (h : Complete next starts known s)
    (hknown : ∀ x ∈ known, x ∈ starts) (hstep : Step next s s') :
    Complete next starts known s' := by
  obtain ⟨hx, hpending⟩ := hstep
  exact ((h.perm hx.symm).follow hknown rfl).perm hpending

/-- Every step leaves less to be followed. -/
theorem remaining_lt_of_step {elements : List α}
    (hclosed : ∀ x, ∀ y ∈ next x, y ∈ elements) (hstep : Step next s s') :
    s'.remaining elements < s.remaining elements := by
  obtain ⟨hx, hpending⟩ := hstep
  rename_i x rest pending
  have hle := remaining_foldl_find_le (s := { s with pending := rest })
    (hclosed x)
  have hlength : s.pending.length = rest.length + 1 := hx.length_eq
  have hlength' := hpending.length_eq
  simp only [remaining] at hle ⊢
  omega

/-- No search goes on for ever if there are only so many elements. -/
theorem wellFounded_step {elements : List α}
    (hclosed : ∀ x, ∀ y ∈ next x, y ∈ elements) :
    WellFounded fun s' s => Step next s s' :=
  Subrelation.wf (fun hstep => remaining_lt_of_step hclosed hstep)
    (measure (remaining elements)).wf

/-- All searches that have come to their end have found the same. -/
theorem mem_seen_of_steps (hknown : ∀ x ∈ known, x ∈ starts)
    (hsteps : Relation.ReflTransGen (Step next) ⟨starts, known⟩ s)
    (hpending : s.pending = []) {x : α} :
    x ∈ s.seen ↔ x ∈ known ∨ ∃ y ∈ starts, Follows next y x := by
  have h : Complete next starts known s := by
    clear hpending
    induction hsteps with
    | refl => exact complete_start hknown
    | tail _ hstep ih => exact ih.step hknown hstep
  exact h.mem_seen_iff hpending

end Step

end Search

open Search in
/-- A search from some starts finds what they lead to. -/
theorem mem_explore {α : Type*} [Ord α] [Std.TransOrd α]
    [Std.LawfulEqOrd α] {next : α → List α} {fuel : Nat}
    {starts : List α} (elements : List α) {known : Std.TreeSet α}
    (hknown : ∀ x ∈ known, x ∈ starts)
    (hclosed : ∀ x, x ∈ starts ∨ x ∈ elements →
      ∀ y ∈ next x, y ∈ elements)
    (hfuel : starts.length + elements.countP (· ∉ known) ≤ fuel) {x : α} :
    x ∈ explore next fuel starts known ↔
      x ∈ known ∨ ∃ y ∈ starts, Follows next y x := by
  obtain ⟨h, hpending⟩ := complete_run hknown hclosed
    (complete_start hknown) (fun x hx => .inl (hknown x hx)) hfuel
  exact h.mem_seen_iff hpending

end ControlPlane
