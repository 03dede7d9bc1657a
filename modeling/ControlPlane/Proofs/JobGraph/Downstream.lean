import Mathlib
import ControlPlane.Proofs.JobGraph.Depth

/-!
# Downstream is a closure

The questions about what lies downstream are answered by following edges from
one vertex to the next. On every graph, cyclic or not, that comes to an end,
and then the vertices found are those that one or more edges lead to, in
whatever order they were followed. Where a graph can be sorted, downstream is
a strict order, and the sort follows it.
-/

namespace ControlPlane

namespace JobGraph

open Relation (TransGen ReflTransGen)

/-- What is found along the edges is what paths lead to. -/
structure AnswersByPaths (g : JobGraph) : Prop where
  /-- A search ends, whichever vertex found it follows next. -/
  ends : WellFounded fun s' s => Search.Step g.consumersOf s s'
  /-- A search has found the ends of all paths once it has ended. -/
  found : ∀ starts s,
    ReflTransGen (Search.Step g.consumersOf) ⟨starts, ∅⟩ s →
    s.pending = [] → ∀ id, id ∈ s.seen ↔
      ∃ start ∈ starts, TransGen g.LeadsTo start id
  /-- A vertex is downstream of those from which edges lead to it. -/
  downstream : ∀ id start, g.isDownstreamOf id start = true ↔
    TransGen g.LeadsTo start id
  /-- A vertex is downstream of a group if it is none of its members and
  downstream of one. -/
  group : ∀ id group, g.isDownstreamOfGroup id group = true ↔
    ¬ g.IsMember group id ∧
      ∃ m, g.IsMember group m ∧ TransGen g.LeadsTo m id

/-- Downstream is a strict order, and the vertices are listed along it. -/
structure ListedDownstream (g : JobGraph) (order : List JobVertex) :
    Prop where
  irrefl : ∀ id, g.isDownstreamOf id id = false
  trans : ∀ a b c, g.isDownstreamOf b a = true →
    g.isDownstreamOf c b = true → g.isDownstreamOf c a = true
  /-- A vertex is listed once. -/
  once : (order.map (·.id)).Nodup
  /-- A vertex comes before what is downstream of it. -/
  before : ∀ id start, g.isDownstreamOf id start = true → ∃ p q : Nat, p < q ∧
    order[p]?.map (·.id) = some start ∧ order[q]?.map (·.id) = some id

section Downstream

variable {g : JobGraph}

namespace WellFormed

variable (hg : g.WellFormed)

include hg

theorem follows_iff {a b : VertexId} :
    Search.Follows g.consumersOf a b ↔ TransGen g.LeadsTo a b := by
  have hnext : (fun a b => b ∈ g.consumersOf a) = g.LeadsTo := by
    funext a b
    exact propext hg.mem_consumersOf
  rw [Search.Follows, hnext]

/-- Edges only lead to vertices of the graph. -/
theorem mem_of_consumersOf (a : VertexId) :
    ∀ b ∈ g.consumersOf a, b ∈ g.vertices.map (·.id) := by
  intro b hb
  obtain ⟨e, he, -, rfl⟩ := hg.mem_consumersOf.mp hb
  obtain ⟨v, hv, hev⟩ := mem_edges.mp he
  exact List.mem_map.mpr ⟨v, hv, (hg.target v hv e hev).symm⟩

theorem isDownstreamOf_iff {id start : VertexId} :
    g.isDownstreamOf id start = true ↔ TransGen g.LeadsTo start id := by
  rw [isDownstreamOf, decide_eq_true_iff, hg.mem_reachableFrom]
  simp

theorem answersByPaths : g.AnswersByPaths where
  ends := Search.wellFounded_step hg.mem_of_consumersOf
  found starts s hsteps hpending id := by
    rw [Search.mem_seen_of_steps (by simp) hsteps hpending]
    simp [hg.follows_iff]
  downstream _ _ := hg.isDownstreamOf_iff
  group id group := by
    rw [isDownstreamOfGroup]
    simp [mem_snapshotMembers, hg.mem_reachableFrom]

/-! ## Along a sort -/

variable {order : List JobVertex} (h : g.SortedByDepth order)

include h

/-- The vertex that is listed somewhere stands behind those from which edges
lead to it. -/
theorem exists_listed_before {a b : VertexId} (hab : TransGen g.LeadsTo a b)
    {q : Nat} (hq : order[q]?.map (·.id) = some b) :
    ∃ p < q, order[p]?.map (·.id) = some a := by
  -- The last edge of the path is an input of the vertex listed at `q`.
  have hedge : ∀ {a b : VertexId} {q : Nat}, g.LeadsTo a b →
      order[q]?.map (·.id) = some b →
      ∃ p < q, order[p]?.map (·.id) = some a := by
    rintro a b q ⟨e, he, rfl, rfl⟩ hq
    obtain ⟨v, hv, hid⟩ := Option.map_eq_some_iff.mp hq
    obtain ⟨w, hw, hew⟩ := mem_edges.mp he
    have hwv : w = v := hg.vertex_inj hw
      (h.perm.mem_iff.mp (List.mem_of_getElem? hv))
      ((hg.target w hw e hew).symm.trans hid.symm)
    exact h.upstream q v hv e (hwv ▸ hew)
  induction hab generalizing q with
  | single hlead => exact hedge hlead hq
  | tail _ hlead ih =>
    obtain ⟨p, hpq, hp⟩ := hedge hlead hq
    obtain ⟨r, hrp, hr⟩ := ih hp
    exact ⟨r, hrp.trans hpq, hr⟩

theorem listedDownstream : g.ListedDownstream order := by
  have hbefore : ∀ {id start}, TransGen g.LeadsTo start id →
      ∃ p q : Nat, p < q ∧ order[p]?.map (·.id) = some start ∧
        order[q]?.map (·.id) = some id := by
    intro id start hpath
    obtain ⟨c, -, e, he, -, rfl⟩ := TransGen.tail'_iff.mp hpath
    obtain ⟨v, hv, hev⟩ := mem_edges.mp he
    obtain ⟨q, hq⟩ := List.mem_iff_getElem?.mp (h.perm.mem_iff.mpr hv)
    have hid : order[q]?.map (·.id) = some e.target := by
      rw [hq, hg.target v hv e hev]
      rfl
    obtain ⟨p, hpq, hp⟩ := hg.exists_listed_before h hpath hid
    exact ⟨p, q, hpq, hp, hid⟩
  have honce : (order.map (·.id)).Nodup :=
    (h.perm.map _).nodup_iff.mpr hg.ids_nodup
  refine ⟨fun id => ?irrefl, fun a b c hab hbc => ?trans, honce,
    fun id start hpath => hbefore (hg.isDownstreamOf_iff.mp hpath)⟩
  case irrefl =>
    rw [← Bool.not_eq_true, hg.isDownstreamOf_iff]
    intro hcycle
    obtain ⟨p, q, hpq, hp, hq⟩ := hbefore hcycle
    rw [← List.getElem?_map] at hp hq
    have hlt := (List.getElem?_eq_some_iff.mp hp).1
    exact Nat.ne_of_lt hpq
      ((List.getElem?_inj hlt honce).mp (hp.trans hq.symm))
  case trans =>
    rw [hg.isDownstreamOf_iff] at hab hbc ⊢
    exact hab.trans hbc

end WellFormed

/-! ## Every graph that can be built -/

/-- The answers on what lies downstream are those that paths give, on cyclic
graphs as well. If a graph can be sorted, the sort lists every vertex before
what is downstream of it. -/
theorem answersByPaths_of_built (hbuilt : g.Built) :
    g.AnswersByPaths ∧
      ∀ order, g.sorted = .ok order → g.ListedDownstream order := by
  have hg := hbuilt.wellFormed
  exact ⟨hg.answersByPaths,
    fun order h => hg.listedDownstream (hg.sortedByDepth h)⟩

end Downstream

/-! ## A group on a cycle -/

/-- The graph with a vertex in a group, if there is the vertex. -/
def join (g : JobGraph) (group : String) (id : Nat) : JobGraph :=
  (g.setSnapshotGroup ⟨⟨id⟩⟩ group).toOption.getD g

theorem Built.join {g : JobGraph} (hg : g.Built) (group : String) (id : Nat) :
    (g.join group id).Built := by
  unfold JobGraph.join
  cases h : g.setSnapshotGroup ⟨⟨id⟩⟩ group with
  | error e => exact hg
  | ok g' => exact .setSnapshotGroup hg h

/-- Both sides read from each other, and are in one group. -/
def sided : JobGraph := (looped.join "sides" 2).join "sides" 3

/-- The sides are downstream of themselves but not of their group, and the
sink is. The diamond is listed from the source to the sink. -/
theorem answersByPaths_sided_and_diamond :
    (sided.AnswersByPaths ∧ sided.isDownstreamOf ⟨⟨3⟩⟩ ⟨⟨3⟩⟩ = true ∧
      sided.isDownstreamOfGroup ⟨⟨3⟩⟩ "sides" = false ∧
      sided.isDownstreamOfGroup ⟨⟨4⟩⟩ "sides" = true) ∧
    ∃ order, diamond.sorted = .ok order ∧ diamond.ListedDownstream order ∧
      diamond.isDownstreamOf ⟨⟨4⟩⟩ ⟨⟨1⟩⟩ = true := by
  have hsided := answersByPaths_of_built
    ((built_looped.join "sides" 2).join "sides" 3)
  have hdiamond := answersByPaths_of_built built_diamond
  refine ⟨⟨hsided.1, by decide +kernel, by decide +kernel,
    by decide +kernel⟩, ?_⟩
  have hsorted : diamond.sorted.isOk = true := by decide +kernel
  have horder := eq_ok_getD hsorted []
  exact ⟨_, horder, hdiamond.2 _ horder, by decide +kernel⟩

end JobGraph

end ControlPlane
