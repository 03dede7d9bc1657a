import Mathlib
import ControlPlane.Proofs.Topology.Regions
import ControlPlane.Proofs.Topology.Wiring

/-!
# Subtasks of a job graph

Which subtasks feed which, and which of them belong into one region, can be
said of a job graph before it is expanded: the patterns of its edges wire
the numbers of the subtasks. A vertex that only has fully wired edges may get
more subtasks then. Nothing that belonged together comes apart, and nothing
new comes together if the new subtasks are taken for an old one.
-/

namespace ControlPlane

namespace JobGraph

/-- The number of subtasks of a vertex. -/
def parallelismOf (g : JobGraph) (id : VertexId) : Nat :=
  match g.vertex id with
  | .ok v => v.parallelism
  | .error _ => 0

/-- The wires of an edge, between the numbers of the subtasks. -/
def wiresOf (g : JobGraph) (e : JobEdge) : List Wire :=
  Wire.ofPattern e.pattern (List.range (g.parallelismOf e.producer))
    (List.range (g.parallelismOf e.target))

/-- An edge wires a subtask of its producer to one of its target. -/
def Connects (g : JobGraph) (e : JobEdge) (k l : Nat) : Prop :=
  ∃ w ∈ g.wiresOf e, k ∈ w.partitions ∧ l ∈ w.consumers

/-- A subtask consumes data of a kind that another one produces. -/
def SubtaskFeeds (g : JobGraph) (a b : TaskId) (kind : ResultKind) : Prop :=
  ∃ e ∈ g.edges, e.kind = kind ∧ e.producer = a.vertex ∧
    e.target = b.vertex ∧ g.Connects e a.subtask b.subtask

/-- An arc between subtasks, as between tasks. -/
def SubtaskArc (g : JobGraph) (a b : TaskId) : Prop :=
  (∃ kind, g.SubtaskFeeds a b kind) ∨ g.SubtaskFeeds b a .pipelined

/-- Two subtasks that belong into one region. -/
def SubtasksTogether (g : JobGraph) (a b : TaskId) : Prop :=
  Mutual g.SubtaskArc a b ∨
    (Mutual g.VertexArc a.vertex b.vertex ∧ g.InShuffle a.vertex)

/-- Equal subtasks of the vertices of a co-location group belong into one
region. -/
def CoLocated (g : JobGraph) : Prop :=
  ∀ v ∈ g.vertices, ∀ w ∈ g.vertices, ∀ group,
    v.coLocationGroup = some group → w.coLocationGroup = some group →
    ∀ k, k < v.parallelism → k < w.parallelism →
      g.SubtasksTogether ⟨v.id, k⟩ ⟨w.id, k⟩

section Graph

variable {g : JobGraph} {e : JobEdge} {a b : TaskId}

theorem WellFormed.parallelismOf_eq (hg : g.WellFormed) {v : JobVertex}
    (hv : v ∈ g.vertices) : g.parallelismOf v.id = v.parallelism := by
  rw [parallelismOf, hg.vertex_eq_ok.mpr ⟨hv, rfl⟩]

/-- Both ends of an edge are vertices. -/
theorem WellFormed.exists_ends (hg : g.WellFormed) (he : e ∈ g.edges) :
    (∃ v ∈ g.vertices, v.id = e.producer) ∧
      ∃ v ∈ g.vertices, v.id = e.target := by
  obtain ⟨v, hv, hev⟩ := mem_edges.mp he
  exact ⟨(hg.producer v hv e hev).2, v, hv, (hg.target v hv e hev).symm⟩

/-- A fully wired edge connects all subtasks. -/
theorem connects_shuffle (hpattern : e.pattern = .allToAll) {k l : Nat} :
    g.Connects e k l ↔
      k < g.parallelismOf e.producer ∧ l < g.parallelismOf e.target := by
  simp [Connects, wiresOf, hpattern, Wire.ofPattern]

theorem SubtaskArc.vertexArc (h : g.SubtaskArc a b) :
    g.VertexArc a.vertex b.vertex := by
  rcases h with ⟨-, e, he, -, hproducer, htarget, -⟩ |
    ⟨e, he, hkind, hproducer, htarget, -⟩
  · exact ⟨e, he, .inl ⟨hproducer, htarget⟩⟩
  · exact ⟨e, he, .inr ⟨hkind, htarget, hproducer⟩⟩

/-- Subtasks that belong together have vertices that lead to each other. -/
theorem SubtasksTogether.mutual (h : g.SubtasksTogether a b) :
    Mutual g.VertexArc a.vertex b.vertex := by
  rcases h with ⟨hab, hba⟩ | ⟨hmutual, -⟩
  · exact ⟨hab.lift TaskId.vertex fun _ _ harc => harc.vertexArc,
      hba.lift TaskId.vertex fun _ _ harc => harc.vertexArc⟩
  · exact hmutual

/-- A vertex with only fully wired edges on a cycle with another vertex. -/
theorem inShuffle_of_mutual {x y : VertexId} (hne : x ≠ y)
    (hmutual : Mutual g.VertexArc x y)
    (hshuffled : ∀ e ∈ g.edges, e.producer = x ∨ e.target = x →
      e.pattern = .allToAll) : g.InShuffle x := by
  obtain ⟨hxy, hyx⟩ := hmutual
  -- The first edge on the way has both ends on the cycle.
  rcases hxy.cases_head with heq | ⟨z, harc, hzy⟩
  · exact absurd heq hne
  have hxz : Mutual g.VertexArc x z := ⟨.single harc, hzy.trans hyx⟩
  obtain ⟨e, he, ⟨rfl, rfl⟩ | ⟨-, rfl, rfl⟩⟩ := harc
  · exact ⟨e, he, hshuffled e he (.inl rfl), ⟨.refl, .refl⟩, hxz⟩
  · exact ⟨e, he, hshuffled e he (.inr rfl), hxz, ⟨.refl, .refl⟩⟩

end Graph

/-! ## More subtasks -/

/-- A vertex with only fully wired edges has got more subtasks. -/
structure Widened (g : JobGraph) (id : VertexId) (n : Nat) (g' : JobGraph) :
    Prop where
  wellFormed : g'.WellFormed
  vertices : g'.vertices = g.vertices.map fun w =>
    if w.id = id then { w with parallelism := n } else w
  shuffled : ∀ e ∈ g.edges, e.producer = id ∨ e.target = id →
    e.pattern = .allToAll
  le : g.parallelismOf id ≤ n

/-- The subtask that a new one is taken for. -/
def takenFor (id : VertexId) (old sibling : Nat) (a : TaskId) : TaskId :=
  if a.vertex = id ∧ old ≤ a.subtask then ⟨id, sibling⟩ else a

theorem vertex_takenFor (id : VertexId) (old sibling : Nat) (a : TaskId) :
    (takenFor id old sibling a).vertex = a.vertex := by
  unfold takenFor
  split
  · rename_i h
    exact h.1.symm
  · rfl

namespace Widened

variable {g g' : JobGraph} {id : VertexId} {n : Nat} {e : JobEdge}
  {a b : TaskId}

theorem edges_eq (h : g.Widened id n g') : g'.edges = g.edges := by
  rw [edges, h.vertices, List.flatMap_map]
  apply List.flatMap_congr
  intro w _
  split <;> rfl

theorem vertexArc_eq (h : g.Widened id n g') : g'.VertexArc = g.VertexArc := by
  funext x y
  rw [VertexArc, h.edges_eq]
  rfl

theorem inShuffle_iff (h : g.Widened id n g') {x : VertexId} :
    g'.InShuffle x ↔ g.InShuffle x := by
  rw [InShuffle, InShuffle, h.edges_eq, h.vertexArc_eq]

variable (hg : g.WellFormed) (h : g.Widened id n g')

include hg h

theorem parallelismOf_eq {v : JobVertex} (hv : v ∈ g.vertices) :
    g'.parallelismOf v.id = if v.id = id then n else g.parallelismOf v.id := by
  have hmem : (if v.id = id then { v with parallelism := n } else v) ∈
      g'.vertices := by
    rw [h.vertices]
    exact List.mem_map_of_mem (f := fun w =>
      if w.id = id then { w with parallelism := n } else w) hv
  have heq := h.wellFormed.parallelismOf_eq hmem
  by_cases hid : v.id = id
  · rw [if_pos hid] at heq ⊢
    exact heq
  · rw [if_neg hid] at heq ⊢
    rw [heq, hg.parallelismOf_eq hv]

theorem le_parallelismOf {v : JobVertex} (hv : v ∈ g.vertices) :
    g.parallelismOf v.id ≤ g'.parallelismOf v.id := by
  rw [h.parallelismOf_eq hg hv]
  split
  · rename_i hid
    exact hid ▸ h.le
  · exact Nat.le_refl _

/-- The wires of the other edges stay. -/
theorem wiresOf_eq (he : e ∈ g.edges) (hproducer : e.producer ≠ id)
    (htarget : e.target ≠ id) : g'.wiresOf e = g.wiresOf e := by
  obtain ⟨⟨v, hv, hvid⟩, w, hw, hwid⟩ := hg.exists_ends he
  have hp := h.parallelismOf_eq hg hv
  have hc := h.parallelismOf_eq hg hw
  rw [if_neg (hvid ▸ hproducer), hvid] at hp
  rw [if_neg (hwid ▸ htarget), hwid] at hc
  rw [wiresOf, wiresOf, hp, hc]

/-- What is connected stays connected. -/
theorem connects (he : e ∈ g.edges) {k l : Nat} (hc : g.Connects e k l) :
    g'.Connects e k l := by
  by_cases hid : e.producer = id ∨ e.target = id
  · have hpattern := h.shuffled e he hid
    obtain ⟨⟨v, hv, hvid⟩, w, hw, hwid⟩ := hg.exists_ends he
    rw [connects_shuffle hpattern] at hc ⊢
    exact ⟨Nat.lt_of_lt_of_le hc.1 (hvid ▸ h.le_parallelismOf hg hv),
      Nat.lt_of_lt_of_le hc.2 (hwid ▸ h.le_parallelismOf hg hw)⟩
  · rw [not_or] at hid
    rwa [Connects, h.wiresOf_eq hg he hid.1 hid.2]

theorem subtaskArc (harc : g.SubtaskArc a b) : g'.SubtaskArc a b := by
  have hfeeds : ∀ {x y : TaskId} {kind : ResultKind},
      g.SubtaskFeeds x y kind → g'.SubtaskFeeds x y kind := by
    rintro x y kind ⟨e, he, hkind, hproducer, htarget, hc⟩
    exact ⟨e, h.edges_eq ▸ he, hkind, hproducer, htarget,
      h.connects hg he hc⟩
  exact harc.imp (fun ⟨kind, hf⟩ => ⟨kind, hfeeds hf⟩) hfeeds

/-- Subtasks that belong together do so afterwards. -/
theorem together (ht : g.SubtasksTogether a b) : g'.SubtasksTogether a b := by
  rcases ht with ⟨hab, hba⟩ | ⟨hmutual, hshuffle⟩
  · have harc : ∀ x y, g.SubtaskArc x y → g'.SubtaskArc x y :=
      fun _ _ => h.subtaskArc hg
    exact .inl ⟨Relation.ReflTransGen.mono harc _ _ hab,
      Relation.ReflTransGen.mono harc _ _ hba⟩
  · exact .inr ⟨h.vertexArc_eq ▸ hmutual, h.inShuffle_iff.mpr hshuffle⟩

/-- A new subtask feeds and is fed as any other one of its vertex. -/
theorem subtaskFeeds_takenFor {sibling : Nat}
    (hsibling : sibling < g.parallelismOf id) {kind : ResultKind}
    (hf : g'.SubtaskFeeds a b kind) :
    g.SubtaskFeeds (takenFor id (g.parallelismOf id) sibling a)
      (takenFor id (g.parallelismOf id) sibling b) kind := by
  obtain ⟨e, he, hkind, hproducer, htarget, hc⟩ := hf
  rw [h.edges_eq] at he
  refine ⟨e, he, hkind, hproducer.trans (vertex_takenFor _ _ _ _).symm,
    htarget.trans (vertex_takenFor _ _ _ _).symm, ?_⟩
  -- An edge of the grown vertex connects all subtasks in range. Any other one
  -- keeps its wires.
  by_cases hid : e.producer = id ∨ e.target = id
  · have hpattern := h.shuffled e he hid
    obtain ⟨⟨v, hv, hvid⟩, w, hw, hwid⟩ := hg.exists_ends he
    have hp := h.parallelismOf_eq hg hv
    have hq := h.parallelismOf_eq hg hw
    rw [hvid, hproducer] at hp
    rw [hwid, htarget] at hq
    rw [connects_shuffle hpattern, hproducer, htarget] at hc ⊢
    have hbound : ∀ {x : TaskId}, x.subtask < g'.parallelismOf x.vertex →
        g'.parallelismOf x.vertex =
          (if x.vertex = id then n else g.parallelismOf x.vertex) →
        (takenFor id (g.parallelismOf id) sibling x).subtask <
          g.parallelismOf x.vertex := by
      intro x hlt heq
      unfold takenFor
      split
      · rename_i hnew
        rw [hnew.1]
        exact hsibling
      · rename_i hold
        rw [heq] at hlt
        split at hlt
        · rename_i hx
          rw [hx]
          exact Nat.lt_of_not_le fun hle => hold ⟨hx, hle⟩
        · exact hlt
    exact ⟨hbound hc.1 hp, hbound hc.2 hq⟩
  · rw [not_or] at hid
    have hkeep : ∀ {x : TaskId}, x.vertex ≠ id →
        takenFor id (g.parallelismOf id) sibling x = x := fun hx =>
      if_neg fun hnew => hx hnew.1
    rw [hkeep (hproducer ▸ hid.1), hkeep (htarget ▸ hid.2)]
    rwa [Connects, ← h.wiresOf_eq hg he hid.1 hid.2]

/-- Nothing new belongs together when new subtasks are taken for an old
one. -/
theorem together_takenFor {sibling : Nat}
    (hsibling : sibling < g.parallelismOf id)
    (ht : g'.SubtasksTogether a b) :
    g.SubtasksTogether (takenFor id (g.parallelismOf id) sibling a)
      (takenFor id (g.parallelismOf id) sibling b) := by
  have harc : ∀ x y, g'.SubtaskArc x y →
      g.SubtaskArc (takenFor id (g.parallelismOf id) sibling x)
        (takenFor id (g.parallelismOf id) sibling y) := fun x y hxy =>
    hxy.imp
      (fun ⟨kind, hf⟩ => ⟨kind, h.subtaskFeeds_takenFor hg hsibling hf⟩)
      (h.subtaskFeeds_takenFor hg hsibling)
  rcases ht with ⟨hab, hba⟩ | ⟨hmutual, hshuffle⟩
  · exact .inl ⟨hab.lift _ harc, hba.lift _ harc⟩
  · refine .inr ?_
    rw [vertex_takenFor, vertex_takenFor, ← h.vertexArc_eq]
    exact ⟨hmutual, h.inShuffle_iff.mp hshuffle⟩

/-- Co-location outlasts further subtasks. -/
theorem coLocated (hpos : ∀ v ∈ g.vertices, 0 < v.parallelism)
    (hco : g.CoLocated) : g'.CoLocated := by
  rw [CoLocated, h.vertices]
  intro v' hv' w' hw' group hvgroup hwgroup k hvk hwk
  obtain ⟨v, hv, rfl⟩ := List.mem_map.mp hv'
  obtain ⟨w, hw, rfl⟩ := List.mem_map.mp hw'
  have hid : ∀ u : JobVertex,
      (if u.id = id then { u with parallelism := n } else u).id = u.id := by
    intro u
    split <;> rfl
  have hgroup : ∀ u : JobVertex,
      (if u.id = id then { u with parallelism := n } else u).coLocationGroup =
        u.coLocationGroup := by
    intro u
    split <;> rfl
  rw [hid, hid]
  rw [hgroup] at hvgroup hwgroup
  by_cases hsame : v.id = w.id
  · rw [hsame]
    exact .inl ⟨.refl, .refl⟩
  have hmutual := (hco v hv w hw group hvgroup hwgroup 0 (hpos v hv)
    (hpos w hw)).mutual
  by_cases hvid : v.id = id
  · -- Its edges are fully wired, so all subtasks are in one region.
    have hshuffle := inShuffle_of_mutual hsame hmutual (hvid ▸ h.shuffled)
    exact .inr ⟨h.vertexArc_eq ▸ hmutual, h.inShuffle_iff.mpr hshuffle⟩
  · by_cases hwid : w.id = id
    · have hshuffle := inShuffle_of_mutual (Ne.symm hsame) hmutual.symm
        (hwid ▸ h.shuffled)
      exact .inr ⟨h.vertexArc_eq ▸ hmutual,
        h.inShuffle_iff.mpr (hshuffle.mutual hmutual.symm)⟩
    · rw [if_neg hvid] at hvk
      rw [if_neg hwid] at hwk
      exact h.together hg (hco v hv w hw group hvgroup hwgroup k hvk hwk)

end Widened

end JobGraph

end ControlPlane
