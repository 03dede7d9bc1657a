import Mathlib
import ControlPlane.Proofs.Topology.Invariant

/-!
# Connecting an edge

The wires of an edge become groups, numbered from the first free position.
A task that is on one wire consumes one more group afterwards, and a
partition on one wire has one more consumer group, so connecting the edges
of a vertex one after the other gives its tasks their groups in the order
of the edges.
-/

namespace ControlPlane

namespace Wire

/-- The numbers of the wires with a property, counted from `n`. -/
def numbersOf (P : Wire → Bool) (n : Nat) (ws : List Wire) : List Nat :=
  ((ws.zipIdx n).filter (P ·.1)).map (·.2)

theorem numbersOf_cons (P : Wire → Bool) (n : Nat) (w : Wire)
    (ws : List Wire) :
    numbersOf P n (w :: ws) =
      (if P w then [n] else []) ++ numbersOf P (n + 1) ws := by
  rw [numbersOf, List.zipIdx_cons, List.filter_cons]
  split <;> rfl

theorem mem_numbersOf {P : Wire → Bool} {n g : Nat} {ws : List Wire} :
    g ∈ numbersOf P n ws ↔
      n ≤ g ∧ ∃ w, ws[g - n]? = some w ∧ P w = true := by
  simp only [numbersOf, List.mem_map, List.mem_filter, Prod.exists,
    List.mk_mem_zipIdx_iff_le_and_getElem?_sub]
  constructor
  · rintro ⟨w, k, ⟨⟨hk, hw⟩, hP⟩, rfl⟩
    exact ⟨hk, w, hw, hP⟩
  · rintro ⟨hn, w, hw, hP⟩
    exact ⟨w, g, ⟨⟨hn, hw⟩, hP⟩, rfl⟩

theorem length_numbersOf (P : Wire → Bool) (n : Nat) (ws : List Wire) :
    (numbersOf P n ws).length = ws.countP P := by
  induction ws generalizing n with
  | nil => rfl
  | cons w ws ih =>
    rw [numbersOf_cons, List.length_append, ih, List.countP_cons]
    split <;> simp_all [Nat.add_comm]

/-- On how many wires something is, when no wire has it twice. -/
theorem countP_mem_eq_count {f : Wire → List Nat} {ws : List Wire}
    (h : (ws.flatMap f).Nodup) (i : Nat) :
    ws.countP (i ∈ f ·) = (ws.flatMap f).count i := by
  induction ws with
  | nil => rfl
  | cons w ws ih =>
    rw [List.flatMap_cons, List.nodup_append] at h
    obtain ⟨hw, hws, -⟩ := h
    rw [List.flatMap_cons, List.count_append, List.countP_cons, ih hws,
      List.Nodup.count hw]
    by_cases hi : i ∈ f w <;> simp [hi, Nat.add_comm]

/-- The ends of a wire are there, and none is named twice. -/
structure Fits (t : Topology) (w : Wire) : Prop where
  partitions_nodup : w.partitions.Nodup
  consumers_nodup : w.consumers.Nodup
  partitions_lt : ∀ p ∈ w.partitions, p < t.partitions.size
  consumers_lt : ∀ i ∈ w.consumers, i < t.tasks.size

theorem Fits.addGroup {t : Topology} {w : Wire} (h : w.Fits t) (e : JobEdge)
    (w' : Wire) : w.Fits (Topology.addGroup e t w') where
  partitions_nodup := h.partitions_nodup
  consumers_nodup := h.consumers_nodup
  partitions_lt := by simpa using h.partitions_lt
  consumers_lt := by simpa using h.consumers_lt

end Wire

namespace Topology

/-! ## All wires of an edge -/

section FoldWires

variable {t : Topology} {e : JobEdge} {ws : List Wire}

theorem exchangeAt_foldl_addGroup (g : Nat) :
    (ws.foldl (addGroup e) t).exchangeAt g =
      if g < t.groups.size then t.exchangeAt g
      else if g < t.groups.size + ws.length then some e.exchange
      else none := by
  induction ws generalizing t with
  | nil =>
    by_cases hg : g < t.groups.size
    · simp [hg]
    · simp [hg, exchangeAt]
  | cons w ws ih =>
    rw [List.foldl_cons, ih, size_groups_addGroup, exchangeAt_addGroup,
      List.length_cons]
    rcases Nat.lt_trichotomy g t.groups.size with hlt | heq | hgt
    · have h1 : g < t.groups.size + 1 := by omega
      simp [hlt, h1, Nat.ne_of_lt hlt]
    · simp [heq]
    · have h1 : ¬ g < t.groups.size := by omega
      have h2 : ¬ g < t.groups.size + 1 := by omega
      have h3 : g < t.groups.size + 1 + ws.length ↔
          g < t.groups.size + (ws.length + 1) := by omega
      simp [h1, h2, h3]

theorem partitionsIn_foldl_addGroup (g : Nat) :
    (ws.foldl (addGroup e) t).partitionsIn g =
      if g < t.groups.size then t.partitionsIn g
      else (ws[g - t.groups.size]?.map (·.partitions)).getD [] := by
  induction ws generalizing t with
  | nil =>
    by_cases hg : g < t.groups.size
    · simp [hg]
    · simp [hg, partitionsIn]
  | cons w ws ih =>
    rw [List.foldl_cons, ih, size_groups_addGroup, partitionsIn_addGroup]
    rcases Nat.lt_trichotomy g t.groups.size with hlt | heq | hgt
    · have h1 : g < t.groups.size + 1 := by omega
      simp [hlt, h1, Nat.ne_of_lt hlt]
    · simp [heq]
    · have h1 : ¬ g < t.groups.size := by omega
      have h2 : ¬ g < t.groups.size + 1 := by omega
      have h3 : g - t.groups.size = g - (t.groups.size + 1) + 1 := by omega
      simp [h1, h2, h3]

theorem tasksReading_foldl_addGroup (c : Nat) :
    (ws.foldl (addGroup e) t).tasksReading c =
      if c < t.consumerGroups.size then t.tasksReading c
      else (ws[c - t.consumerGroups.size]?.map (·.consumers)).getD [] := by
  induction ws generalizing t with
  | nil =>
    by_cases hc : c < t.consumerGroups.size
    · simp [hc]
    · simp [hc, tasksReading]
  | cons w ws ih =>
    rw [List.foldl_cons, ih, size_consumerGroups_addGroup,
      tasksReading_addGroup]
    rcases Nat.lt_trichotomy c t.consumerGroups.size with hlt | heq | hgt
    · have h1 : c < t.consumerGroups.size + 1 := by omega
      simp [hlt, h1, Nat.ne_of_lt hlt]
    · simp [heq]
    · have h1 : ¬ c < t.consumerGroups.size := by omega
      have h2 : ¬ c < t.consumerGroups.size + 1 := by omega
      have h3 : c - t.consumerGroups.size =
          c - (t.consumerGroups.size + 1) + 1 := by omega
      simp [h1, h2, h3]

variable (hws : ∀ w ∈ ws, w.Fits t)

include hws in
theorem taskIdAt_foldl_addGroup (i : Nat) :
    (ws.foldl (addGroup e) t).taskIdAt i = t.taskIdAt i := by
  induction ws generalizing t with
  | nil => rfl
  | cons w ws ih =>
    have hw := hws w List.mem_cons_self
    rw [List.foldl_cons,
      ih fun w' h => (hws w' (List.mem_cons_of_mem _ h)).addGroup e w,
      taskIdAt_addGroup hw.consumers_nodup]

include hws in
theorem outputAt_foldl_addGroup (p : Nat) :
    (ws.foldl (addGroup e) t).outputAt p = t.outputAt p := by
  induction ws generalizing t with
  | nil => rfl
  | cons w ws ih =>
    have hw := hws w List.mem_cons_self
    rw [List.foldl_cons,
      ih fun w' h => (hws w' (List.mem_cons_of_mem _ h)).addGroup e w,
      outputAt_addGroup hw.partitions_nodup]

include hws in
theorem consumedBy_foldl_addGroup (i : Nat) :
    (ws.foldl (addGroup e) t).consumedBy i = t.consumedBy i ++
      Wire.numbersOf (i ∈ ·.consumers) t.groups.size ws := by
  induction ws generalizing t with
  | nil => simp [Wire.numbersOf]
  | cons w ws ih =>
    have hw := hws w List.mem_cons_self
    rw [List.foldl_cons,
      ih fun w' h => (hws w' (List.mem_cons_of_mem _ h)).addGroup e w,
      consumedBy_addGroup hw.consumers_nodup hw.consumers_lt,
      size_groups_addGroup, Wire.numbersOf_cons]
    by_cases hi : i ∈ w.consumers <;> simp [hi]

include hws in
theorem consumersOf_foldl_addGroup (p : Nat) :
    (ws.foldl (addGroup e) t).consumersOf p = t.consumersOf p ++
      Wire.numbersOf (p ∈ ·.partitions) t.consumerGroups.size ws := by
  induction ws generalizing t with
  | nil => simp [Wire.numbersOf]
  | cons w ws ih =>
    have hw := hws w List.mem_cons_self
    rw [List.foldl_cons,
      ih fun w' h => (hws w' (List.mem_cons_of_mem _ h)).addGroup e w,
      consumersOf_addGroup hw.partitions_nodup hw.partitions_lt,
      size_consumerGroups_addGroup, Wire.numbersOf_cons]
    by_cases hp : p ∈ w.partitions <;> simp [hp]

end FoldWires

/-! ## What one wire keeps -/

section AddGroup

variable {t : Topology} {e : JobEdge} {w : Wire}

theorem Indexed.addGroup (h : t.Indexed) (hw : w.Fits t) :
    (addGroup e t w).Indexed where
  tasks := by
    intro id i
    rw [taskIdAt_addGroup hw.consumers_nodup]
    exact h.tasks id i
  partitions := by
    intro id p
    show _ ↔ ((Topology.addGroup e t w).outputAt p).map (·.id) = some id
    rw [outputAt_addGroup hw.partitions_nodup]
    exact h.partitions id p

theorem Producing.addGroup {outputs : TaskIndex → List JobEdge}
    (h : t.Producing outputs) (hw : w.Fits t) :
    (addGroup e t w).Producing outputs where
  produced := by
    intro i id hi
    rw [taskIdAt_addGroup hw.consumers_nodup] at hi
    rw [producedBy_addGroup hw.consumers_nodup,
      funext (outputAt_addGroup (e := e) hw.partitions_nodup)]
    exact h.produced i id hi
  producer := by
    intro p x hp
    rw [outputAt_addGroup hw.partitions_nodup] at hp
    rw [producedBy_addGroup hw.consumers_nodup]
    exact h.producer p x hp

theorem Grouped.addGroup (h : t.Grouped) (hw : w.Fits t) :
    (addGroup e t w).Grouped where
  size := by simp [h.size]
  consumerGroup := by
    intro g hg
    rw [size_groups_addGroup] at hg
    rw [consumerGroupAt_addGroup, h.size]
    split
    · rename_i heq
      rw [heq]
    · exact h.consumerGroup g (by omega)
  partitionGroup := by
    intro g hg
    rw [size_groups_addGroup] at hg
    rw [partitionGroupAt_addGroup, h.size]
    split
    · rename_i heq
      rw [heq]
    · exact h.partitionGroup g (by omega)
  mem_partitionsIn := by
    intro g p
    rw [partitionsIn_addGroup,
      consumersOf_addGroup hw.partitions_nodup hw.partitions_lt, h.size]
    -- The new group is in no list yet.
    have hnew : t.groups.size ∉ t.consumersOf p := fun hg =>
      Nat.lt_irrefl _ (h.lt_of_mem_consumersOf hg)
    by_cases hg : g = t.groups.size
    · subst hg
      by_cases hp : p ∈ w.partitions <;> simp [hp, hnew]
    · by_cases hp : p ∈ w.partitions <;>
        simp [hg, hp, h.mem_partitionsIn g p]
  mem_tasksReading := by
    intro g i
    rw [tasksReading_addGroup,
      consumedBy_addGroup hw.consumers_nodup hw.consumers_lt, h.size]
    have hnew : t.groups.size ∉ t.consumedBy i := fun hg =>
      Nat.lt_irrefl _ (h.lt_of_mem_consumedBy hg)
    by_cases hg : g = t.groups.size
    · subst hg
      by_cases hi : i ∈ w.consumers <;> simp [hi, hnew]
    · by_cases hi : i ∈ w.consumers <;>
        simp [hg, hi, h.mem_tasksReading g i]
  nodup_partitionsIn := by
    intro g
    rw [partitionsIn_addGroup]
    split
    · exact hw.partitions_nodup
    · exact h.nodup_partitionsIn g
  nodup_tasksReading := by
    intro g
    rw [tasksReading_addGroup]
    split
    · exact hw.consumers_nodup
    · exact h.nodup_tasksReading g

end AddGroup

/-- What every wire keeps is kept by all of them. -/
theorem foldl_addGroup_keeps {P : Topology → Prop} {e : JobEdge}
    (hstep : ∀ {t : Topology} {w : Wire}, P t → w.Fits t →
      P (addGroup e t w)) {t : Topology} (h : P t) {ws : List Wire}
    (hws : ∀ w ∈ ws, w.Fits t) : P (ws.foldl (addGroup e) t) := by
  induction ws generalizing t with
  | nil => exact h
  | cons w ws ih =>
    exact ih (hstep h (hws w List.mem_cons_self))
      fun w' hw' => (hws w' (List.mem_cons_of_mem _ hw')).addGroup e w

/-! ## What an edge keeps -/

section AddGroups

variable {t : Topology} {e : JobEdge} {ws : List Wire}

theorem Indexed.addGroups (h : t.Indexed) (hws : ∀ w ∈ ws, w.Fits t) :
    (t.addGroups e ws).Indexed := by
  have hfold := foldl_addGroup_keeps (P := (·.Indexed))
    (fun h hw => Indexed.addGroup h hw) h hws (e := e)
  exact ⟨hfold.tasks, hfold.partitions⟩

theorem Producing.addGroups {outputs : TaskIndex → List JobEdge}
    (h : t.Producing outputs) (hws : ∀ w ∈ ws, w.Fits t) :
    (t.addGroups e ws).Producing outputs := by
  have hfold := foldl_addGroup_keeps (P := (·.Producing outputs))
    (fun h hw => Producing.addGroup h hw) h hws (e := e)
  exact ⟨hfold.produced, hfold.producer⟩

theorem Grouped.addGroups (h : t.Grouped) (hws : ∀ w ∈ ws, w.Fits t) :
    (t.addGroups e ws).Grouped := by
  have hfold := foldl_addGroup_keeps (P := (·.Grouped))
    (fun h hw => Grouped.addGroup h hw) h hws (e := e)
  exact ⟨hfold.size, hfold.consumerGroup, hfold.partitionGroup,
    hfold.mem_partitionsIn, hfold.mem_tasksReading,
    hfold.nodup_partitionsIn, hfold.nodup_tasksReading⟩

theorem exchangeAt_addGroups (g : Nat) :
    (t.addGroups e ws).exchangeAt g =
      if g < t.groups.size then t.exchangeAt g
      else if g < t.groups.size + ws.length then some e.exchange
      else none :=
  exchangeAt_foldl_addGroup g

theorem partitionsIn_addGroups (g : Nat) :
    (t.addGroups e ws).partitionsIn g =
      if g < t.groups.size then t.partitionsIn g
      else (ws[g - t.groups.size]?.map (·.partitions)).getD [] :=
  partitionsIn_foldl_addGroup g

theorem taskIdAt_addGroups (hws : ∀ w ∈ ws, w.Fits t) (i : Nat) :
    (t.addGroups e ws).taskIdAt i = t.taskIdAt i :=
  taskIdAt_foldl_addGroup hws i

theorem outputAt_addGroups (hws : ∀ w ∈ ws, w.Fits t) (p : Nat) :
    (t.addGroups e ws).outputAt p = t.outputAt p :=
  outputAt_foldl_addGroup hws p

theorem consumedBy_addGroups (hws : ∀ w ∈ ws, w.Fits t) (i : Nat) :
    (t.addGroups e ws).consumedBy i = t.consumedBy i ++
      Wire.numbersOf (i ∈ ·.consumers) t.groups.size ws :=
  consumedBy_foldl_addGroup hws i

theorem consumersOf_addGroups (hws : ∀ w ∈ ws, w.Fits t) (p : Nat) :
    (t.addGroups e ws).consumersOf p = t.consumersOf p ++
      Wire.numbersOf (p ∈ ·.partitions) t.consumerGroups.size ws :=
  consumersOf_foldl_addGroup hws p

theorem getD_dataSetGroups_addGroups (ws : List Wire) (d : DataSetId) :
    (t.addGroups e ws).dataSetGroups.getD d [] =
      if e.source = d then t.dataSetGroups.getD e.source [] ++
        List.range' t.groups.size ws.length
      else t.dataSetGroups.getD d [] := by
  simp only [addGroups, Std.TreeMap.getD_insert,
    Std.LawfulEqCmp.compare_eq_iff_eq]

/-- Wires that go once through the partitions of a new dataset and once
through the tasks of a vertex connect its edge. -/
structure Connects (t : Topology) (e : JobEdge) (ws : List Wire) : Prop where
  partitions_nodup : (ws.flatMap (·.partitions)).Nodup
  consumers_nodup : (ws.flatMap (·.consumers)).Nodup
  mem_partitions : ∀ p, p ∈ ws.flatMap (·.partitions) ↔
    ∃ x, t.outputAt p = some x ∧ x.id.dataSet = e.source
  mem_consumers : ∀ i, i ∈ ws.flatMap (·.consumers) ↔
    ∃ id, t.taskIdAt i = some id ∧ id.vertex = e.target
  single : e.pattern = .allToAll → ws.length = 1

theorem Connects.fits (h : t.Connects e ws) : ∀ w ∈ ws, w.Fits t := by
  intro w hw
  refine ⟨?_, ?_, ?_, ?_⟩
  · exact (List.nodup_flatMap.mp h.partitions_nodup).1 w hw
  · exact (List.nodup_flatMap.mp h.consumers_nodup).1 w hw
  · intro p hp
    obtain ⟨x, hx, -⟩ :=
      (h.mem_partitions p).mp (List.mem_flatMap.mpr ⟨w, hw, hp⟩)
    exact lt_of_outputAt hx
  · intro i hi
    obtain ⟨id, hid, -⟩ :=
      (h.mem_consumers i).mp (List.mem_flatMap.mpr ⟨w, hw, hi⟩)
    exact lt_of_taskIdAt hid

section Carry

variable {done : List JobEdge}

/-- Nothing is registered with a dataset of no connected edge. -/
theorem Carrying.dataSetGroups_eq_nil (h : t.Carrying done) {d : DataSetId}
    (hnew : ∀ e ∈ done, e.source ≠ d) : t.dataSetGroups.getD d [] = [] := by
  rw [List.eq_nil_iff_forall_not_mem]
  intro g hg
  obtain ⟨x, hx, heq⟩ :=
    Option.map_eq_some_iff.mp ((h.dataSetGroups _ _).mp hg)
  obtain ⟨e', he', rfl⟩ := h.exchange g x hx
  exact hnew e' he' heq

theorem Carrying.lt_of_mem_dataSetGroups (h : t.Carrying done)
    {d : DataSetId} {g : Nat} (hg : g ∈ t.dataSetGroups.getD d []) :
    g < t.groups.size := by
  obtain ⟨x, hx, -⟩ :=
    Option.map_eq_some_iff.mp ((h.dataSetGroups d g).mp hg)
  exact lt_of_exchangeAt hx

variable (hws : t.Connects e ws)

/-- A group that was there keeps what it carries, and a new one carries the
edge. -/
theorem Carrying.exchange_addGroups (h : t.Carrying done) {g : Nat}
    {x : Exchange} (hg : (t.addGroups e ws).exchangeAt g = some x) :
    ∃ e' ∈ done ++ [e], e'.exchange = x := by
  rw [exchangeAt_addGroups] at hg
  split at hg
  · obtain ⟨e', he', hex⟩ := h.exchange g x hg
    exact ⟨e', List.mem_append_left _ he', hex⟩
  · split at hg
    · exact ⟨e, by simp, Option.some.inj hg⟩
    · cases hg

include hws

theorem Carrying.dataSet_addGroups (h : t.Carrying done) {g p : Nat}
    (hp : p ∈ (t.addGroups e ws).partitionsIn g) :
    ((t.addGroups e ws).outputAt p).map (·.id.dataSet) =
      ((t.addGroups e ws).exchangeAt g).map (·.dataSet) := by
  rw [partitionsIn_addGroups] at hp
  rw [outputAt_addGroups hws.fits, exchangeAt_addGroups]
  split at hp
  · rename_i hg
    rw [if_pos hg]
    exact h.dataSet g p hp
  · rename_i hg
    cases hw : ws[g - t.groups.size]? with
    | none => simp [hw] at hp
    | some w =>
      have hlt := (List.getElem?_eq_some_iff.mp hw).1
      rw [if_neg hg, if_pos (by omega)]
      rw [hw] at hp
      obtain ⟨x, hx, hsrc⟩ := (hws.mem_partitions p).mp
        (List.mem_flatMap.mpr ⟨w, List.mem_iff_getElem?.mpr ⟨_, hw⟩, hp⟩)
      simp [hx, hsrc, JobEdge.exchange]

/-- The new groups of a task carry the edge. There is one of them if the edge
leads to the vertex of the task, and none otherwise. -/
theorem Connects.map_exchangeAt_new {i : Nat} {id : TaskId}
    (hi : t.taskIdAt i = some id) :
    (Wire.numbersOf (i ∈ ·.consumers) t.groups.size ws).map
        (t.addGroups e ws).exchangeAt =
      ([e].filter (·.target = id.vertex)).map fun e => some e.exchange := by
  have hall : ∀ g ∈ Wire.numbersOf (i ∈ ·.consumers) t.groups.size ws,
      (t.addGroups e ws).exchangeAt g = some e.exchange := by
    intro g hg
    obtain ⟨hle, w, hw, -⟩ := Wire.mem_numbersOf.mp hg
    have hlt := (List.getElem?_eq_some_iff.mp hw).1
    rw [exchangeAt_addGroups, if_neg (by omega), if_pos (by omega)]
  have hiff : i ∈ ws.flatMap (·.consumers) ↔ e.target = id.vertex := by
    rw [hws.mem_consumers i]
    simp [hi, eq_comm]
  rw [List.map_congr_left hall, List.map_const', Wire.length_numbersOf,
    Wire.countP_mem_eq_count (f := (·.consumers)) hws.consumers_nodup,
    List.Nodup.count hws.consumers_nodup]
  by_cases htarget : e.target = id.vertex
  · simp [hiff.mpr htarget, htarget]
  · simp [hiff.not.mpr htarget, htarget]

theorem Carrying.consumed_addGroups (h : t.Carrying done)
    (hgrouped : t.Grouped) {i : Nat} {id : TaskId}
    (hi : t.taskIdAt i = some id) :
    ((t.addGroups e ws).consumedBy i).map (t.addGroups e ws).exchangeAt =
      ((done ++ [e]).filter (·.target = id.vertex)).map
        fun e => some e.exchange := by
  rw [consumedBy_addGroups hws.fits, List.map_append, List.filter_append,
    List.map_append, hws.map_exchangeAt_new hi, ← h.consumed i id hi]
  congr 1
  apply List.map_congr_left
  intro g hg
  rw [exchangeAt_addGroups, if_pos (hgrouped.lt_of_mem_consumedBy hg)]

theorem Carrying.connected_addGroups (h : t.Carrying done) {p : Nat}
    {x : Output} (hp : t.outputAt p = some x) :
    ((t.addGroups e ws).consumersOf p).length =
      (done ++ [e]).countP (·.source = x.id.dataSet) := by
  rw [consumersOf_addGroups hws.fits, List.length_append,
    Wire.length_numbersOf,
    Wire.countP_mem_eq_count (f := (·.partitions)) hws.partitions_nodup,
    List.Nodup.count hws.partitions_nodup, h.connected p x hp,
    List.countP_append]
  have hiff : p ∈ ws.flatMap (·.partitions) ↔ x.id.dataSet = e.source := by
    rw [hws.mem_partitions p]
    simp [hp]
  by_cases hx : x.id.dataSet = e.source
  · simp [hiff.mpr hx, hx]
  · rw [if_neg (hiff.not.mpr hx)]
    simp [Ne.symm hx]

omit hws in
theorem Carrying.dataSetGroups_addGroups (h : t.Carrying done)
    (d : DataSetId) (g : Nat) :
    g ∈ (t.addGroups e ws).dataSetGroups.getD d [] ↔
      ((t.addGroups e ws).exchangeAt g).map (·.dataSet) = some d := by
  rw [exchangeAt_addGroups, getD_dataSetGroups_addGroups]
  by_cases hg : g < t.groups.size
  · have hnew : ¬ (t.groups.size ≤ g ∧ g < t.groups.size + ws.length) := by
      omega
    rw [if_pos hg, ← h.dataSetGroups]
    split
    · rename_i hd
      rw [List.mem_append, List.mem_range'_1, or_iff_left hnew, hd]
    · rfl
  · have hold : g ∉ t.dataSetGroups.getD d [] := fun hmem =>
      hg (h.lt_of_mem_dataSetGroups hmem)
    rw [if_neg hg]
    by_cases hd : e.source = d
    · subst hd
      rw [if_pos rfl, List.mem_append, List.mem_range'_1,
        or_iff_right hold, and_iff_right (Nat.le_of_not_lt hg)]
      split <;> simp_all [JobEdge.exchange]
    · rw [if_neg hd]
      split <;> simp_all [JobEdge.exchange]

/-- A connected edge has its groups. -/
theorem Carrying.addGroups (h : t.Carrying done)
    (hgrouped : t.Grouped) (hsource : ∀ e' ∈ done, e'.source ≠ e.source) :
    (t.addGroups e ws).Carrying (done ++ [e]) where
  exchange _ _ hg := h.exchange_addGroups hg
  dataSet _ _ hp := h.dataSet_addGroups hws hp
  consumed i id hi := by
    rw [taskIdAt_addGroups hws.fits] at hi
    exact h.consumed_addGroups hws hgrouped hi
  connected p x hp := by
    rw [outputAt_addGroups hws.fits] at hp
    exact h.connected_addGroups hws hp
  dataSetGroups := h.dataSetGroups_addGroups
  shuffled := by
    intro e' he' hpattern
    rw [getD_dataSetGroups_addGroups]
    rcases List.mem_append.mp he' with he' | he'
    · rw [if_neg (hsource e' he').symm]
      exact h.shuffled e' he' hpattern
    · cases List.mem_singleton.mp he'
      rw [if_pos rfl, h.dataSetGroups_eq_nil hsource, List.nil_append,
        List.length_range']
      exact hws.single hpattern

end Carry

end AddGroups

end Topology

end ControlPlane
