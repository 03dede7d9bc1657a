import Mathlib
import ControlPlane.Checkpoint.RunningStatus

/-!
# A running status is a finite set

Subtask `i` is bit `i % 64` of word `i / 64`. As long as the bits beyond the
last subtask are clear, what is counted and compared word by word is what a
set of subtasks has: its size, whether it is empty, and whether it is
everything.
-/

namespace ControlPlane.Checkpoint

namespace RunningStatus

variable {s : RunningStatus} {i : Nat}

/-- The bit of a subtask, in range or not. -/
def bit (s : RunningStatus) (i : Nat) : Bool :=
  (s.words[i / 64]?.getD 0#64).getLsbD (i % 64)

/-- There are as many words as the subtasks need, and no bits beyond the last
subtask. -/
structure Sound (s : RunningStatus) : Prop where
  size : s.words.size = (s.length + 63) / 64
  lt_of_bit : ∀ i, s.bit i = true → i < s.length

theorem Sound.contains_eq_bit (h : s.Sound) (i : Nat) :
    s.contains i = s.bit i := by
  by_cases hi : i < s.length
  · simp [contains, bit, hi]
  · have hclear : s.bit i = false :=
      Bool.eq_false_iff.mpr fun hbit => hi (h.lt_of_bit i hbit)
    simp [contains, hi, hclear]

/-- The bits of the words are the bits of the subtasks. -/
theorem getLsbD_word (s : RunningStatus) (w : Nat) {b : Nat} (hb : b < 64) :
    (s.words[w]?.getD 0#64).getLsbD b = s.bit (64 * w + b) := by
  have hdiv : (64 * w + b) / 64 = w := by omega
  have hmod : (64 * w + b) % 64 = b := by omega
  rw [bit, hdiv, hmod]

theorem Sound.lt_of_contains (h : s.Sound) (hi : s.contains i = true) :
    i < s.length :=
  h.lt_of_bit i (h.contains_eq_bit i ▸ hi)

/-! ## What the steps do to a bit -/

@[simp] theorem bit_empty (n i : Nat) : (empty n).bit i = false := by
  simp only [bit, empty, Array.getElem?_replicate]
  split <;> simp

@[simp] theorem bit_clear (s : RunningStatus) (i : Nat) :
    s.clear.bit i = false := by
  simp only [bit, clear, Array.getElem?_map]
  cases s.words[i / 64]? <;> simp

theorem Sound.bit_insert (h : s.Sound) (hi : i < s.length) (j : Nat) :
    (s.insert i).bit j = (decide (j = i) || s.bit j) := by
  have hword : i / 64 < s.words.size := by
    rw [h.size]
    omega
  simp only [bit, insert, Array.getElem?_modify]
  by_cases hw : i / 64 = j / 64
  · have hj : j / 64 < s.words.size := hw ▸ hword
    have hbit : j % 64 = i % 64 ↔ j = i := by omega
    simp [hw, hj, Nat.mod_lt, hbit, Bool.or_comm]
  · have hne : j ≠ i := by
      rintro rfl
      exact hw rfl
    simp [hw, hne]

theorem sound_empty (n : Nat) : (empty n).Sound where
  size := by simp [empty]
  lt_of_bit := by simp

theorem Sound.insert (h : s.Sound) (hi : i < s.length) :
    (s.insert i).Sound where
  size := by
    simpa [RunningStatus.insert] using h.size
  lt_of_bit := by
    intro j hj
    rw [h.bit_insert hi, Bool.or_eq_true, decide_eq_true_eq] at hj
    rcases hj with rfl | hj
    · exact hi
    · exact h.lt_of_bit j hj

theorem Sound.clear (h : s.Sound) : s.clear.Sound where
  size := by simpa [RunningStatus.clear] using h.size
  lt_of_bit := by simp

/-! ## What the steps do to a set -/

@[simp] theorem length_insert (s : RunningStatus) (i : Nat) :
    (s.insert i).length = s.length := rfl

@[simp] theorem contains_empty (n i : Nat) :
    (empty n).contains i = false := by
  rw [(sound_empty n).contains_eq_bit, bit_empty]

theorem Sound.contains_clear (h : s.Sound) (i : Nat) :
    s.clear.contains i = false := by
  rw [h.clear.contains_eq_bit, bit_clear]

theorem Sound.contains_insert (h : s.Sound) (hi : i < s.length) (j : Nat) :
    (s.insert i).contains j = (decide (j = i) || s.contains j) := by
  rw [(h.insert hi).contains_eq_bit, h.bit_insert hi, h.contains_eq_bit]

/-- The elements of a list that have a property, added by place. -/
theorem foldl_insert {α : Type*} {P : α → Bool} {xs : List α} {n : Nat}
    (h : s.Sound) (hn : n + xs.length ≤ s.length) :
    let filled := (xs.zipIdx n).foldl
      (fun s x => if P x.1 then s.insert x.2 else s) s
    filled.Sound ∧ filled.length = s.length ∧
      ∀ k, filled.contains k = true ↔ s.contains k = true ∨
        (n ≤ k ∧ ∃ x, xs[k - n]? = some x ∧ P x = true) := by
  induction xs generalizing n s with
  | nil => simpa using h
  | cons x xs ih =>
    rw [List.length_cons] at hn
    rw [List.zipIdx_cons, List.foldl_cons]
    -- What is at a place behind the first is behind the first of the rest.
    have hplace : ∀ k, (n ≤ k ∧ ∃ y, (x :: xs)[k - n]? = some y ∧ P y = true) ↔
        (k = n ∧ P x = true) ∨
          (n + 1 ≤ k ∧ ∃ y, xs[k - (n + 1)]? = some y ∧ P y = true) := by
      intro k
      rcases Nat.lt_trichotomy k n with hlt | rfl | hgt
      · have h1 : ¬ n ≤ k := by omega
        have h2 : ¬ n + 1 ≤ k := by omega
        simp [h1, h2, Nat.ne_of_lt hlt]
      · simp
      · have h1 : k - n = k - (n + 1) + 1 := by omega
        have h2 : n + 1 ≤ k := hgt
        simp [h1, h2, Nat.ne_of_gt hgt, Nat.le_of_lt hgt]
    dsimp only
    cases hx : P x with
    | false =>
      obtain ⟨hsound, hlength, hmem⟩ := ih (n := n + 1) h (by omega)
      simp only [Bool.false_eq_true, if_false]
      refine ⟨hsound, hlength, fun k => ?_⟩
      rw [hmem k, hplace k]
      simp [hx]
    | true =>
      have hlt : n < s.length := by omega
      obtain ⟨hsound, hlength, hmem⟩ :=
        ih (n := n + 1) (h.insert hlt) (by rw [length_insert]; omega)
      simp only [if_true]
      refine ⟨hsound, hlength, fun k => ?_⟩
      rw [hmem k, hplace k, h.contains_insert hlt]
      simp only [hx, Bool.or_eq_true, decide_eq_true_eq, and_true]
      tauto

/-! ## Counting -/

/-- The bits of some words, counted from the first word on. -/
theorem foldl_bitCount (words : List (BitVec 64)) :
    words.foldl (fun count word => count + bitCount word) 0 =
      (List.range (64 * words.length)).countP fun i =>
        (words[i / 64]?.getD 0#64).getLsbD (i % 64) := by
  -- The induction takes the last word off, which has the last bits.
  induction words using List.reverseRecOn with
  | nil => rfl
  | append_singleton words word ih =>
    rw [List.foldl_append, ih, List.length_append, List.length_singleton,
      Nat.mul_add, List.range_add, List.countP_append, List.countP_map]
    simp only [List.foldl_cons, List.foldl_nil]
    congr 1
    · apply List.countP_congr
      intro i hi
      have hlt : i / 64 < words.length := by
        have := List.mem_range.mp hi
        omega
      rw [List.getElem?_append_left hlt]
    · apply List.countP_congr
      intro i hi
      have hlt := List.mem_range.mp hi
      have hword : (64 * words.length + i) / 64 = words.length := by omega
      have hbit : (64 * words.length + i) % 64 = i := by omega
      simp [hword, hbit]

/-- The words together count the set. -/
theorem Sound.cardinality_eq (h : s.Sound) :
    s.cardinality = (List.range s.length).countP s.contains := by
  obtain ⟨rest, hsize⟩ : ∃ rest, 64 * s.words.size = s.length + rest :=
    ⟨64 * s.words.size - s.length, by
      rw [h.size]
      omega⟩
  have hbits : s.cardinality =
      (List.range (64 * s.words.size)).countP s.bit := by
    have hfold := foldl_bitCount s.words.toList
    simp only [Array.foldl_toList, Array.length_toList,
      Array.getElem?_toList] at hfold
    exact hfold
  have hrest : ((List.range rest).map (s.length + ·)).countP s.bit = 0 := by
    rw [List.countP_eq_zero]
    intro i hi hbit
    obtain ⟨k, -, rfl⟩ := List.mem_map.mp hi
    have := h.lt_of_bit _ hbit
    omega
  rw [hbits, hsize, List.range_add, List.countP_append, hrest, Nat.add_zero,
    funext h.contains_eq_bit]

theorem Sound.cardinality_pos (h : s.Sound) :
    0 < s.cardinality ↔ ∃ i, s.contains i = true := by
  rw [h.cardinality_eq, List.countP_pos_iff]
  constructor
  · rintro ⟨i, -, hi⟩
    exact ⟨i, hi⟩
  · rintro ⟨i, hi⟩
    exact ⟨i, List.mem_range.mpr (h.lt_of_contains hi), hi⟩

theorem Sound.allRunning_iff (h : s.Sound) :
    s.allRunning = true ↔ ∀ i < s.length, s.contains i = true := by
  have hall := List.countP_eq_length (p := s.contains)
    (l := List.range s.length)
  rw [List.length_range] at hall
  rw [allRunning, decide_eq_true_eq, h.cardinality_eq, hall]
  simp only [List.mem_range]

theorem Sound.noneRunning_iff (h : s.Sound) :
    s.noneRunning = true ↔ ∀ i, s.contains i = false := by
  rw [noneRunning, Array.all_eq_true_iff_forall_mem]
  constructor
  · intro hzero i
    rw [h.contains_eq_bit, bit]
    cases hw : s.words[i / 64]? with
    | none => simp
    | some word =>
      have hword := hzero word (Array.mem_of_getElem? hw)
      rw [beq_iff_eq] at hword
      simp [hword]
  · intro hnone word hword
    obtain ⟨w, hw⟩ := Array.mem_iff_getElem?.mp hword
    rw [beq_iff_eq]
    apply BitVec.eq_of_getLsbD_eq
    intro b hb
    have hbit := hnone (64 * w + b)
    rw [h.contains_eq_bit, ← getLsbD_word s w hb, hw] at hbit
    simpa using hbit

/-- Equal sets have equal words. -/
theorem Sound.ext {s' : RunningStatus} (h : s.Sound) (h' : s'.Sound)
    (hlength : s.length = s'.length)
    (hcontains : ∀ i, s.contains i = s'.contains i) : s = s' := by
  have hsize : s.words.size = s'.words.size := by
    rw [h.size, h'.size, hlength]
  have hwords : s.words = s'.words := by
    refine Array.ext hsize fun w hw hw' => BitVec.eq_of_getLsbD_eq fun b hb => ?_
    have hbit := hcontains (64 * w + b)
    rw [h.contains_eq_bit, h'.contains_eq_bit, ← getLsbD_word s w hb,
      ← getLsbD_word s' w hb] at hbit
    simpa [hw, hw'] using hbit
  cases s
  cases s'
  cases hwords
  cases hlength
  rfl

/-! ## Sets -/

/-- A status stands for a set of subtasks among the first `n`. -/
structure Represents (s : RunningStatus) (n : Nat) (running : Finset Nat) :
    Prop where
  length : s.length = n
  /-- Every subtask in range has its word. -/
  words : ∀ i < n, i / 64 < s.words.size
  below : ∀ i ∈ running, i < n
  contains : ∀ i, s.contains i = true ↔ i ∈ running
  cardinality : s.cardinality = running.card
  noneRunning : s.noneRunning = true ↔ running = ∅
  allRunning : s.allRunning = true ↔ ∀ i < n, i ∈ running

theorem Sound.represents (h : s.Sound) :
    s.Represents s.length
      ((Finset.range s.length).filter (s.contains · = true)) := by
  have hmem : ∀ i, i ∈ (Finset.range s.length).filter (s.contains · = true) ↔
      s.contains i = true := by
    intro i
    rw [Finset.mem_filter, Finset.mem_range]
    exact ⟨And.right, fun hi => ⟨h.lt_of_contains hi, hi⟩⟩
  refine ⟨rfl, fun i hi => ?_, fun i hi => h.lt_of_contains ((hmem i).mp hi),
    fun i => (hmem i).symm, ?_, ?_, ?_⟩
  · rw [h.size]
    omega
  · rw [h.cardinality_eq, List.countP_eq_length_filter,
      ← List.toFinset_card_of_nodup (List.nodup_range.filter _),
      List.toFinset_filter, List.toFinset_range]
  · simp only [h.noneRunning_iff, Finset.eq_empty_iff_forall_notMem, hmem,
      Bool.not_eq_true]
  · simp only [h.allRunning_iff, hmem]

/-! ## Updates -/

/-- A change of the running subtasks. -/
inductive Update where
  | insert (subtask : Nat)
  | clear

/-- An inserted subtask is among the first `n`. -/
def Update.Below (n : Nat) : Update → Prop
  | insert subtask => subtask < n
  | clear => True

/-- The status after an update. -/
def Update.run (s : RunningStatus) : Update → RunningStatus
  | insert subtask => s.insert subtask
  | clear => s.clear

/-- The status of `n` subtasks after some updates. -/
def after (n : Nat) (updates : List Update) : RunningStatus :=
  updates.foldl Update.run (empty n)

/-- The subtask was inserted, and nothing was cleared behind that. -/
def Remains (updates : List Update) (i : Nat) : Prop :=
  ∃ behind, .insert i :: behind <:+ updates ∧ .clear ∉ behind

section Updates

variable {n : Nat} {updates : List Update}

/-- A subtask remains if the last update inserts it, or if that clears nothing
and the subtask has remained before. -/
theorem remains_append_singleton {u : Update} :
    Remains (updates ++ [u]) i ↔
      u = .insert i ∨ (u ≠ .clear ∧ Remains updates i) := by
  constructor
  · rintro ⟨behind, hsuffix, hclear⟩
    rcases List.suffix_concat_iff.mp hsuffix with hnil | ⟨start, heq, hstart⟩
    · cases hnil
    · cases start with
      | nil => exact .inl (List.cons.inj heq).1.symm
      | cons v between =>
        obtain ⟨rfl, rfl⟩ := List.cons.inj heq
        have hnot : .clear ∉ between ++ [u] := hclear
        rw [List.mem_append, not_or] at hnot
        exact .inr ⟨by simpa [eq_comm] using hnot.2, between, hstart, hnot.1⟩
  · rintro (rfl | ⟨hne, behind, ⟨start, rfl⟩, hclear⟩)
    · exact ⟨[], List.suffix_append _ _, List.not_mem_nil⟩
    · refine ⟨behind ++ [u], ⟨start, by simp⟩, ?_⟩
      simp [hclear, Ne.symm hne]

/-- What a status contains after some updates. -/
theorem sound_after (h : ∀ u ∈ updates, u.Below n) :
    (after n updates).Sound ∧ (after n updates).length = n ∧
      ∀ i, (after n updates).contains i = true ↔ Remains updates i := by
  induction updates using List.reverseRecOn with
  | nil =>
    refine ⟨sound_empty n, rfl, fun i => iff_of_false (by simp [after]) ?_⟩
    rintro ⟨behind, hsuffix, -⟩
    cases List.suffix_nil.mp hsuffix
  | append_singleton updates u ih =>
    obtain ⟨hsound, hlength, hmem⟩ :=
      ih fun v hv => h v (List.mem_append_left _ hv)
    have hbelow : u.Below n := h u (by simp)
    have hlast : after n (updates ++ [u]) = u.run (after n updates) :=
      List.foldl_append
    simp only [hlast, remains_append_singleton]
    cases u with
    | insert j =>
      have hj : j < (after n updates).length := hlength.symm ▸ hbelow
      refine ⟨hsound.insert hj, hlength, fun i => ?_⟩
      rw [Update.run, hsound.contains_insert hj, Bool.or_eq_true,
        decide_eq_true_eq, hmem]
      simp [eq_comm]
    | clear =>
      refine ⟨hsound.clear, hlength, fun i => ?_⟩
      rw [Update.run, hsound.contains_clear]
      simp

/-- A status is the set of the subtasks that were inserted since it was
cleared, and is equal to another one for as many subtasks iff that contains
the same. -/
theorem represents_after (h : ∀ u ∈ updates, u.Below n) :
    (∃ running : Finset Nat, (∀ i, i ∈ running ↔ Remains updates i) ∧
      (after n updates).Represents n running) ∧
    ∀ others : List Update, (∀ u ∈ others, u.Below n) →
      (after n updates = after n others ↔
        ∀ i, (after n updates).contains i = (after n others).contains i) := by
  obtain ⟨hsound, hlength, hmem⟩ := sound_after h
  constructor
  · have hset := hsound.represents
    rw [hlength] at hset
    exact ⟨_, fun i => (hset.contains i).symm.trans (hmem i), hset⟩
  · intro others hothers
    obtain ⟨hsound', hlength', -⟩ := sound_after hothers
    exact ⟨fun heq _ => by rw [heq],
      hsound.ext hsound' (hlength.trans hlength'.symm)⟩

end Updates

/-- Of 130 subtasks, the first one, the last one and one at the start of a
word remain. -/
def acrossWords : List Update :=
  [.insert 1, .clear, .insert 0, .insert 64, .insert 129]

/-- The order of the inserts does not matter, nor does a repeated one. -/
theorem represents_after_acrossWords :
    (∀ u ∈ acrossWords, u.Below 130) ∧
    (∃ running : Finset Nat, (∀ i, i ∈ running ↔ Remains acrossWords i) ∧
      (after 130 acrossWords).Represents 130 running) ∧
    (after 130 acrossWords).cardinality = 3 ∧
    ∀ i, (after 130 acrossWords).contains i =
      (after 130 [.insert 129, .insert 64, .insert 129, .insert 0]).contains
        i := by
  have hbelow : ∀ u ∈ acrossWords, u.Below 130 := by
    simp [acrossWords, Update.Below]
  have hset := represents_after hbelow
  exact ⟨hbelow, hset.1, by decide +kernel,
    (hset.2 _ (by simp [Update.Below])).mp (by decide +kernel)⟩

end RunningStatus

end ControlPlane.Checkpoint
