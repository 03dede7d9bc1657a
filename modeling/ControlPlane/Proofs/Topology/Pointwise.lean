import Mathlib
import ControlPlane.Proofs.Checked.Words
import ControlPlane.Proofs.Topology.Frame
import ControlPlane.Proofs.Topology.Views

/-!
# Pointwise edges cover both sides once

The smaller side of a pointwise edge has one wire for each of its subtasks,
and the larger side is cut into as many ranges, by a function that starts at
zero, ends at the number of its subtasks and grows with every step. This is
why no subtask is left out, none is on two wires and no range is empty. The
cuts of the consumers are rounded up, those of the partitions down, and this
is what makes both sides agree: a consumer reads from the partition that it
would start at if there were more partitions.
-/

namespace ControlPlane

namespace Wire

/-! ## The vocabulary -/

/-- Consecutive numbers below a bound, at least one and in ascending order. -/
def Stretch (bound : Nat) (l : List Nat) : Prop :=
  ∃ start length, 0 < length ∧ start + length ≤ bound ∧
    l = List.range' start length

/-- The partitions that a consumer reads. -/
def share (sources targets i : Nat) : List Nat :=
  if sources = targets then [i]
  else if targets < sources then
    List.range' (i * sources / targets)
      ((i + 1) * sources / targets - i * sources / targets)
  else [i * sources / targets]

/-- Wires between numbers of subtasks that spread the partitions over the
consumers. -/
structure Spread (sources targets : Nat) (ws : List Wire) : Prop where
  partition : ∀ p < sources,
    ∃! k : Nat, ∃ w, ws[k]? = some w ∧ p ∈ w.partitions
  consumer : ∀ i < targets,
    ∃! k : Nat, ∃ w, ws[k]? = some w ∧ i ∈ w.consumers
  partitions : ∀ w ∈ ws, Stretch sources w.partitions
  consumers : ∀ w ∈ ws, Stretch targets w.consumers
  reads : ∀ w ∈ ws, ∀ i ∈ w.consumers, w.partitions = share sources targets i

/-! ## Cuts -/

/-- A function that cuts `n` numbers into `m` ranges. -/
structure Cuts (m n : Nat) (f : Nat → Nat) : Prop where
  zero : f 0 = 0
  mono : StrictMono f
  last : f m = n

/-- The numbers between two cuts. -/
def piece (f : Nat → Nat) (k : Nat) : List Nat :=
  List.range' (f k) (f (k + 1) - f k)

/-- The wires between the pieces of two sides. -/
def between (m : Nat) (f g : Nat → Nat) : List Wire :=
  (List.range m).map fun k => ⟨piece f k, piece g k⟩

theorem cuts_id (n : Nat) : Cuts n n id := ⟨rfl, strictMono_id, rfl⟩

/-- The cuts of the larger side, rounded down. -/
theorem cuts_floor {m n : Nat} (hm : 0 < m) (hle : m ≤ n) :
    Cuts m n fun k => k * n / m where
  zero := by simp
  mono := strictMono_nat_of_lt_succ (mul_div_lt_succ hm hle)
  last := Nat.mul_div_cancel_left n hm

/-- The cuts of the larger side, rounded up. -/
theorem cuts_ceil {m n : Nat} (hm : 0 < m) (hle : m ≤ n) :
    Cuts m n fun k => ceilDiv (k * n) m where
  zero := by simp [ceilDiv_zero hm]
  mono := strictMono_nat_of_lt_succ (ceilDiv_lt_succ hm hle)
  last := ceilDiv_mul_self hm

@[simp] theorem piece_id (k : Nat) : piece id k = [k] := by
  simp [piece]

section Cuts

variable {m n : Nat} {f : Nat → Nat} (h : Cuts m n f)

include h

theorem Cuts.mem_piece {i k : Nat} :
    i ∈ piece f k ↔ f k ≤ i ∧ i < f (k + 1) := by
  have hlt : f k < f (k + 1) := h.mono (Nat.lt_succ_self k)
  rw [piece, List.mem_range'_1]
  omega

/-- A piece is a stretch of its side. -/
theorem Cuts.stretch {k : Nat} (hk : k < m) : Stretch n (piece f k) := by
  have hlt : f k < f (k + 1) := h.mono (Nat.lt_succ_self k)
  have hle : f (k + 1) ≤ f m := h.mono.monotone hk
  refine ⟨f k, f (k + 1) - f k, by omega, ?_, rfl⟩
  rw [← h.last]
  omega

/-- Nothing falls between two pieces. -/
theorem Cuts.exists_piece {i : Nat} (hi : i < n) :
    ∃ k < m, i ∈ piece f k := by
  have hbelow : ∀ l, i < f l → ∃ k < l, f k ≤ i ∧ i < f (k + 1) := by
    intro l
    induction l with
    | zero => simp [h.zero]
    | succ l ih =>
      intro hl
      rcases Nat.lt_or_ge i (f l) with hlt | hge
      · obtain ⟨k, hk, hcut⟩ := ih hlt
        exact ⟨k, Nat.lt_succ_of_lt hk, hcut⟩
      · exact ⟨l, Nat.lt_succ_self l, hge, hl⟩
  obtain ⟨k, hk, hcut⟩ := hbelow m (by rwa [h.last])
  exact ⟨k, hk, h.mem_piece.mpr hcut⟩

/-- No two pieces overlap. -/
theorem Cuts.disjoint {k l : Nat} (hkl : k < l) :
    List.Disjoint (piece f k) (piece f l) := by
  intro i hk hl
  have hnext : f (k + 1) ≤ f l := h.mono.monotone hkl
  have hend := (h.mem_piece.mp hk).2
  have hstart := (h.mem_piece.mp hl).1
  omega

end Cuts

/-- Wires between pieces cover the sides that the pieces are cut from. -/
theorem spread_between {m sources targets : Nat} {f g : Nat → Nat}
    (hf : Cuts m sources f) (hg : Cuts m targets g)
    (hreads : ∀ k < m, ∀ i ∈ piece g k,
      piece f k = share sources targets i) :
    Spread sources targets (between m f g) where
  partition p hp := by
    apply existsUnique_position (f := Wire.partitions)
    · exact List.pairwise_map.mpr (List.pairwise_lt_range.imp hf.disjoint)
    · obtain ⟨k, hk, hmem⟩ := hf.exists_piece hp
      exact ⟨_, List.mem_map_of_mem (List.mem_range.mpr hk), hmem⟩
  consumer i hi := by
    apply existsUnique_position (f := Wire.consumers)
    · exact List.pairwise_map.mpr (List.pairwise_lt_range.imp hg.disjoint)
    · obtain ⟨k, hk, hmem⟩ := hg.exists_piece hi
      exact ⟨_, List.mem_map_of_mem (List.mem_range.mpr hk), hmem⟩
  partitions w hw := by
    obtain ⟨k, hk, rfl⟩ := List.mem_map.mp hw
    exact hf.stretch (List.mem_range.mp hk)
  consumers w hw := by
    obtain ⟨k, hk, rfl⟩ := List.mem_map.mp hw
    exact hg.stretch (List.mem_range.mp hk)
  reads w hw i hi := by
    obtain ⟨k, hk, rfl⟩ := List.mem_map.mp hw
    exact hreads k (List.mem_range.mp hk) i hi

/-! ## A pointwise edge -/

/-- Cutting a range gives a piece of it. -/
theorem slice_range {start stop n : Nat} (hstop : stop ≤ n) :
    slice (List.range n).toArray start stop =
      List.range' start (stop - start) := by
  rw [slice_eq, ← List.drop_take, List.take_range, Nat.min_eq_left hstop,
    List.range_eq_range', List.drop_range', Nat.zero_add, Nat.mul_one]

theorem spread_equal (n : Nat) :
    Spread n n (pointwise (List.range n) (List.range n)) := by
  have hbetween : pointwise (List.range n) (List.range n) =
      between n id id := by
    rw [pointwise, if_pos rfl, List.zipWith_self]
    simp [between]
  rw [hbetween]
  refine spread_between (cuts_id n) (cuts_id n) fun k _ i hi => ?_
  rw [piece_id, List.mem_singleton] at hi
  rw [hi, share, if_pos rfl, piece_id]

/-- With fewer consumers, the partitions are cut. -/
theorem spread_fewer_targets {sources targets : Nat} (htargets : 0 < targets)
    (hlt : targets < sources) : Spread sources targets
      (pointwise (List.range sources) (List.range targets)) := by
  have hne : sources ≠ targets := Nat.ne_of_gt hlt
  have hbetween : pointwise (List.range sources) (List.range targets) =
      between targets (fun k => k * sources / targets) id := by
    simp only [pointwise, List.length_range, zipIdx_range, List.map_map]
    rw [if_neg hne, if_pos hlt]
    apply List.map_congr_left
    intro k hk
    simp only [Function.comp_apply, piece_id]
    rw [slice_range (succ_mul_div_le (List.mem_range.mp hk))]
    rfl
  rw [hbetween]
  refine spread_between (cuts_floor htargets (Nat.le_of_lt hlt))
    (cuts_id targets) fun k _ i hi => ?_
  rw [piece_id, List.mem_singleton] at hi
  rw [hi, share, if_neg hne, if_pos hlt]
  rfl

/-- With fewer partitions, the consumers are cut. -/
theorem spread_fewer_sources {sources targets : Nat} (hsources : 0 < sources)
    (hlt : sources < targets) : Spread sources targets
      (pointwise (List.range sources) (List.range targets)) := by
  have hne : sources ≠ targets := Nat.ne_of_lt hlt
  have hnot : ¬ targets < sources := Nat.lt_asymm hlt
  have hcuts := cuts_ceil hsources (Nat.le_of_lt hlt)
  have hbetween : pointwise (List.range sources) (List.range targets) =
      between sources id fun k => ceilDiv (k * targets) sources := by
    simp only [pointwise, List.length_range, zipIdx_range, List.map_map]
    rw [if_neg hne, if_neg hnot]
    apply List.map_congr_left
    intro k hk
    simp only [Function.comp_apply, piece_id]
    rw [slice_range (ceilDiv_succ_mul_le (List.mem_range.mp hk))]
    rfl
  rw [hbetween]
  refine spread_between (cuts_id sources) hcuts fun k _ i hi => ?_
  obtain ⟨hstart, hend⟩ := hcuts.mem_piece.mp hi
  -- Rounded up, a bound is at most `i` iff it is so before the division.
  have hfloor : i * sources / targets = k := by
    rw [ceilDiv_le_iff hsources] at hstart
    rw [← Nat.not_le, ceilDiv_le_iff hsources, Nat.not_le] at hend
    exact Nat.div_eq_of_lt_le hstart hend
  rw [piece_id, share, if_neg hne, if_neg hnot, hfloor]

/-- Pointwise wires between numbers of subtasks. -/
theorem spread_pointwise {sources targets : Nat} (hsources : 0 < sources)
    (htargets : 0 < targets) : Spread sources targets
      (pointwise (List.range sources) (List.range targets)) := by
  rcases Nat.lt_trichotomy targets sources with hlt | rfl | hgt
  · exact spread_fewer_targets htargets hlt
  · exact spread_equal targets
  · exact spread_fewer_sources hsources hgt

/-! ## The subtasks on a wire -/

/-- A wire between numbers of subtasks, laid between the subtasks. -/
def laid (ps : List PartitionIndex) (cs : List TaskIndex) : Wire → Wire :=
  map (ps.getD · 0) (cs.getD · 0)

/-- Wires are laid between the subtasks by number. -/
theorem pointwise_eq_map_laid (ps : List PartitionIndex)
    (cs : List TaskIndex) : pointwise ps cs =
      (pointwise (List.range ps.length) (List.range cs.length)).map
        (laid ps cs) := by
  conv_lhs => rw [← map_getD_range ps 0, ← map_getD_range cs 0]
  exact ofPattern_map .pointwise _ _ _ _

end Wire

namespace Topology

/-! ## The groups of the wires -/

/-- What a group connects. -/
def wireOf (t : Topology) (group : PartitionGroup) : Wire :=
  ⟨group.partitions, t.tasksReading group.consumerGroup⟩

/-- The groups for the wires of an edge, with their consumer groups numbered
from `n`. -/
def groupsFor (e : JobEdge) (n : Nat) (ws : List Wire) :
    List PartitionGroup :=
  (ws.zipIdx n).map fun x => ⟨e.source, e.kind, e.pattern, x.1.partitions, x.2⟩

variable {t : Topology} {e : JobEdge}

theorem groups_foldl_addGroup (ws : List Wire) :
    (ws.foldl (addGroup e) t).groups.toList =
      t.groups.toList ++ groupsFor e t.consumerGroups.size ws := by
  induction ws generalizing t with
  | nil => simp [groupsFor]
  | cons w ws ih =>
    rw [List.foldl_cons, ih, size_consumerGroups_addGroup]
    simp [groupsFor, addGroup]

/-- The new groups connect what their wires do. -/
theorem map_wireOf_groupsFor (ws : List Wire) :
    (groupsFor e t.consumerGroups.size ws).map (t.addGroups e ws).wireOf =
      ws := by
  rw [groupsFor, List.map_map]
  conv_rhs => rw [← List.zipIdx_map_fst t.consumerGroups.size ws]
  apply List.map_congr_left
  rintro ⟨w, c⟩ hw
  obtain ⟨hle, hc⟩ := List.mk_mem_zipIdx_iff_le_and_getElem?_sub.mp hw
  have hreaders : (t.addGroups e ws).tasksReading c = w.consumers := by
    refine (tasksReading_foldl_addGroup c).trans ?_
    rw [if_neg (Nat.not_lt.mpr hle), hc]
    rfl
  rw [Function.comp_apply, wireOf, hreaders]

/-- In numbers, the groups of a pointwise edge spread its data over its
readers, after any calls as well. -/
theorem Whole.spread_pointwise (h : t.Whole) (he : e ∈ t.graph.edges)
    (hpattern : e.pattern = .pointwise) :
    Wire.Spread (t.graph.parallelismOf e.producer)
      (t.graph.parallelismOf e.target)
      ((t.dataSetGroups.getD e.source []).map t.numberedAt) := by
  obtain ⟨hsources, htargets⟩ := h.range_ne_nil he
  rw [h.numbered_wires he, JobGraph.wiresOf, hpattern]
  exact Wire.spread_pointwise
    (by simpa using List.length_pos_iff.mpr hsources)
    (by simpa using List.length_pos_iff.mpr htargets)

/-! ## Three sources for five sinks -/

/-- Every sink reads from one source, and every source has sinks. -/
def fannedGraph : JobGraph :=
  let start : JobGraph := { name := "fanned" }
  let vertices :=
    (start.addVertex sampleSource "source" 3).addVertex sampleSink "sink" 5
  (vertices.connect ⟨⟨3⟩⟩ sampleSource sampleSink .pointwise
    .pipelined).toOption.getD vertices

/-- The edge between sources and sinks. -/
def fannedEdge : JobEdge :=
  ⟨⟨⟨3⟩⟩, sampleSource, sampleSink, .pointwise, .pipelined⟩

/-- The sinks are there, and still have no inputs. -/
def fanned : Topology :=
  let start : Topology := { graph := fannedGraph }
  (List.range 5).foldl (addSubtask sampleSink [])
    ((start.addOperator sampleSource).toOption.getD start)

/-! ## Connecting a pointwise edge -/

/-- Connecting a pointwise edge adds groups that spread the partitions of the
producer over the consumers, and its arithmetic stays within words. -/
theorem connectInput_pointwise {o : Operator}
    (ho : t.operator e.producer = .ok o) {ps : List PartitionIndex}
    (hps : o.tasks.map (t.partitionOf? e.source) = ps.map some)
    (hpattern : e.pattern = .pointwise) {consumers : List TaskIndex}
    (hsources : 0 < o.tasks.length) (hsources' : o.tasks.length < 2 ^ 32)
    (htargets : 0 < consumers.length) (htargets' : consumers.length < 2 ^ 32) :
    ∃ ws, Wire.Spread o.tasks.length consumers.length ws ∧
      Word.pointwise ps consumers = .ok (ws.map (Wire.laid ps consumers)) ∧
      ∃ t' added, t.connectInput consumers e = .ok t' ∧
        t'.groups.toList = t.groups.toList ++ added ∧
        added.map t'.wireOf = ws.map (Wire.laid ps consumers) ∧
        ∀ group ∈ added, group.dataSet = e.source ∧ group.kind = e.kind ∧
          group.pattern = .pointwise := by
  have hlength : o.tasks.length = ps.length := by
    simpa using congrArg List.length hps
  have hfound : o.tasks.filterMap (t.partitionOf? e.source) = ps := by
    have hall := congrArg (List.filterMap id) hps
    simpa [List.filterMap_map] using hall
  have hconnect : t.connectInput consumers e =
      .ok (t.addGroups e (Wire.pointwise ps consumers)) := by
    simp [connectInput, ho, hfound, hlength, hpattern, Wire.ofPattern, bind,
      Except.bind, pure, Except.pure]
  refine ⟨_, Wire.spread_pointwise hsources htargets, ?_, _,
    groupsFor e t.consumerGroups.size (Wire.pointwise ps consumers), hconnect,
    groups_foldl_addGroup _, ?_, ?_⟩
  · rw [hlength, ← Wire.pointwise_eq_map_laid]
    exact Word.pointwise_eq_ok (hlength ▸ hsources') htargets'
  · rw [map_wireOf_groupsFor, hlength, ← Wire.pointwise_eq_map_laid]
  · intro group hgroup
    obtain ⟨w, -, rfl⟩ := List.mem_map.mp hgroup
    exact ⟨rfl, rfl, hpattern⟩

/-- The first two sources have two sinks each. -/
theorem connectInput_fanned :
    (fanned.connectInput [3, 4, 5, 6, 7] fannedEdge).toOption.map
        (fun t' => t'.groups.toList.map t'.wireOf) =
      some [⟨[0], [3, 4]⟩, ⟨[1], [5, 6]⟩, ⟨[2], [7]⟩] ∧
    ∃ ws, Wire.Spread 3 5 ws ∧
      Word.pointwise [0, 1, 2] [3, 4, 5, 6, 7] =
        .ok (ws.map (Wire.laid [0, 1, 2] [3, 4, 5, 6, 7])) ∧
      ∃ t' added, fanned.connectInput [3, 4, 5, 6, 7] fannedEdge = .ok t' ∧
        t'.groups.toList = fanned.groups.toList ++ added ∧
        added.map t'.wireOf =
          ws.map (Wire.laid [0, 1, 2] [3, 4, 5, 6, 7]) := by
  have ho : fanned.operator fannedEdge.producer =
      .ok ⟨sampleSource, "source", 3, [0, 1, 2], [], none, none⟩ := rfl
  have hps : [0, 1, 2].map (fanned.partitionOf? fannedEdge.source) =
      [0, 1, 2].map some := by decide +kernel
  have htargets : 0 < [3, 4, 5, 6, 7].length := by decide
  obtain ⟨ws, hspread, hword, t', added, hok, hgroups, hwires, -⟩ :=
    connectInput_pointwise ho hps rfl (by decide) (by decide) htargets
      (by decide)
  exact ⟨by decide +kernel, ws, hspread, hword, t', added, hok, hgroups,
    hwires⟩

end Topology

end ControlPlane
