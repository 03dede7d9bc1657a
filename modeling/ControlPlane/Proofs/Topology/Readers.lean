import Mathlib
import ControlPlane.Proofs.Topology.Pointwise

/-!
# Readers of a partition

A partition lists the groups that hand it on, and a task those that it
consumes. Asked from either side, a task reads a partition iff the edge of
the partition wires both: a fully wired edge always does, and a pointwise one
iff the partition is in the share of the task.
-/

namespace ControlPlane

namespace Topology

/-- One of the groups of a partition is handed to the task. -/
def HandedTo (t : Topology) (id : PartitionId) (reader : TaskId) : Prop :=
  ∃ view, t.partitionView id = .ok view ∧
    ∃ group, some group ∈ view.groups ∧ some reader ∈ group.readers

/-- One of the groups that the task consumes has the partition. -/
def TakenBy (t : Topology) (id : PartitionId) (reader : TaskId) : Prop :=
  ∃ view, t.taskView reader = .ok view ∧
    ∃ group, some group ∈ view.consumed ∧ some id ∈ group.partitions

section Whole

variable {t : Topology} (h : t.Whole) {e : JobEdge} (he : e ∈ t.graph.edges)

include h he

/-- The numbers on a wire are those of subtasks. -/
theorem Whole.lt_of_mem_wire {w : Wire} (hw : w ∈ t.graph.wiresOf e) :
    (∀ k ∈ w.partitions, k < t.graph.parallelismOf e.producer) ∧
      ∀ l ∈ w.consumers, l < t.graph.parallelismOf e.target := by
  obtain ⟨hsources, htargets⟩ := h.range_ne_nil he
  constructor
  · intro k hk
    have hmem := List.mem_flatMap.mpr ⟨w, hw, hk⟩
    rwa [JobGraph.wiresOf, Wire.flatMap_partitions _ _ htargets,
      List.mem_range] at hmem
  · intro l hl
    have hmem := List.mem_flatMap.mpr ⟨w, hw, hl⟩
    rwa [JobGraph.wiresOf, Wire.flatMap_consumers _ hsources,
      List.mem_range] at hmem

/-- An edge wires subtasks as its pattern says. -/
theorem Whole.connects_iff {k l : Nat} : t.graph.Connects e k l ↔
    k < t.graph.parallelismOf e.producer ∧
      l < t.graph.parallelismOf e.target ∧
      (e.pattern = .pointwise → k ∈ Wire.share
        (t.graph.parallelismOf e.producer) (t.graph.parallelismOf e.target)
        l) := by
  have hspread (hpattern : e.pattern = .pointwise) :
      Wire.Spread (t.graph.parallelismOf e.producer)
        (t.graph.parallelismOf e.target) (t.graph.wiresOf e) := by
    rw [← h.numbered_wires he]
    exact h.spread_pointwise he hpattern
  constructor
  · rintro ⟨w, hw, hk, hl⟩
    obtain ⟨hsources, htargets⟩ := h.lt_of_mem_wire he hw
    refine ⟨hsources k hk, htargets l hl, fun hpattern => ?_⟩
    rwa [← (hspread hpattern).reads w hw l hl]
  · rintro ⟨hk, hl, hshare⟩
    cases hpattern : e.pattern with
    | allToAll => exact (JobGraph.connects_shuffle hpattern).mpr ⟨hk, hl⟩
    | pointwise =>
      have hspread := hspread hpattern
      obtain ⟨i, ⟨w, hi, hlw⟩, -⟩ := hspread.consumer l hl
      have hw := List.mem_of_getElem? hi
      refine ⟨w, hw, ?_, hlw⟩
      rw [hspread.reads w hw l hlw]
      exact hshare hpattern

/-- A subtask has a partition on every edge that leaves its vertex. -/
theorem Whole.partitionView_of_lt {k : Nat}
    (hk : k < t.graph.parallelismOf e.producer) :
    t.partitionView ⟨e.source, k⟩ = .ok
      ⟨e.kind, some ⟨e.producer, k⟩, [(t.graph.wireFrom e k).map e.view]⟩ := by
  have hfind : (t.graph.edges.find? fun e' => e'.source = e.source ∧
      k < t.graph.parallelismOf e'.producer) = some e :=
    find?_eq_some_of_unique he (by simpa using hk) fun e' he' hp =>
      h.graph.edge_inj he' he (of_decide_eq_true hp).1
  rw [h.partitionView_eq, JobGraph.partitionView, hfind]

/-- A partition is handed to the tasks that its edge wires to it. -/
theorem Whole.handedTo_iff {k : Nat} {reader : TaskId} :
    t.HandedTo ⟨e.source, k⟩ reader ↔
      reader.vertex = e.target ∧ t.graph.Connects e k reader.subtask := by
  constructor
  · rintro ⟨view, hview, group, hgroup, hreader⟩
    rw [h.partitionView_eq, JobGraph.partitionView] at hview
    split at hview
    · rename_i e' hfind
      cases hview
      have hfound := List.find?_some hfind
      obtain rfl : e' = e := h.graph.edge_inj
        (List.mem_of_find?_eq_some hfind) he (of_decide_eq_true hfound).1
      obtain ⟨w, hw, rfl⟩ :=
        Option.map_eq_some_iff.mp (List.mem_singleton.mp hgroup).symm
      obtain ⟨l, hl, hid⟩ := List.mem_map.mp hreader
      cases hid
      have hk := List.find?_some hw
      exact ⟨rfl, w, List.mem_of_find?_eq_some hw, of_decide_eq_true hk, hl⟩
    · cases hview
  · rintro ⟨hvertex, w, hw, hk, hl⟩
    refine ⟨_, h.partitionView_of_lt he ((h.lt_of_mem_wire he hw).1 k hk),
      e.view w, ?_, ?_⟩
    · rw [h.wireFrom_eq he hw hk]
      exact List.mem_singleton.mpr rfl
    · refine List.mem_map.mpr ⟨reader.subtask, hl, ?_⟩
      rw [← hvertex]

/-- A task reads the partitions that an edge wires to it. -/
theorem Whole.takenBy_iff {k : Nat} {reader : TaskId} :
    t.TakenBy ⟨e.source, k⟩ reader ↔
      reader.vertex = e.target ∧ t.graph.Connects e k reader.subtask := by
  constructor
  · rintro ⟨view, hview, group, hgroup, hpartition⟩
    rw [h.taskView_eq, JobGraph.taskView] at hview
    split at hview
    · cases hview
      obtain ⟨e', he', hwire⟩ := List.mem_map.mp hgroup
      obtain ⟨he', htarget⟩ := List.mem_filter.mp he'
      obtain ⟨w, hw, rfl⟩ := Option.map_eq_some_iff.mp hwire
      obtain ⟨k', hk, hid⟩ := List.mem_map.mp hpartition
      obtain ⟨hsource, rfl⟩ := PartitionId.mk.inj (Option.some.inj hid)
      obtain rfl := h.graph.edge_inj he' he hsource
      have hl := List.find?_some hw
      exact ⟨(of_decide_eq_true htarget).symm, w, List.mem_of_find?_eq_some hw,
        hk, of_decide_eq_true hl⟩
    · cases hview
  · rintro ⟨hvertex, w, hw, hk, hl⟩
    have hlt : reader.subtask < t.graph.parallelismOf reader.vertex :=
      hvertex ▸ (h.lt_of_mem_wire he hw).2 _ hl
    rw [TakenBy, h.taskView_eq, JobGraph.taskView, if_pos hlt]
    refine ⟨_, rfl, e.view w, ?_, List.mem_map.mpr ⟨k, hk, rfl⟩⟩
    refine List.mem_map.mpr
      ⟨e, List.mem_filter.mpr ⟨he, decide_eq_true hvertex.symm⟩, ?_⟩
    rw [h.wireTo_eq he hw hl]
    rfl

end Whole

end Topology

end ControlPlane
