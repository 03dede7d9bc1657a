import Mathlib
import ControlPlane.JobGraph.Reach
import ControlPlane.Proofs.Explore
import ControlPlane.Proofs.JobGraph.Builder

/-!
# Downstream of a vertex

The search from some vertices finds what one or more edges lead to from
there. It never runs out of steps, as it follows no vertex of the graph
twice.
-/

namespace ControlPlane

namespace JobGraph

/-- An edge leads from one vertex to another. -/
def LeadsTo (g : JobGraph) (a b : VertexId) : Prop :=
  ∃ e ∈ g.edges, e.producer = a ∧ e.target = b

/-- A vertex belongs to a snapshot group. -/
def IsMember (g : JobGraph) (group : String) (id : VertexId) : Prop :=
  ∃ v ∈ g.vertices, v.id = id ∧ v.snapshotGroup = some group

variable {g : JobGraph}

namespace WellFormed

variable (hg : g.WellFormed)

include hg

theorem mem_consumersOf {a b : VertexId} :
    b ∈ g.consumersOf a ↔ g.LeadsTo a b := by
  simp only [consumersOf, List.mem_flatMap, List.mem_filterMap, LeadsTo,
    mem_edges]
  constructor
  · rintro ⟨v, hv, e, he, hb⟩
    split at hb
    · rename_i hproducer
      cases hb
      exact ⟨e, ⟨v, hv, he⟩, hproducer, hg.target v hv e he⟩
    · cases hb
  · rintro ⟨e, ⟨v, hv, he⟩, rfl, rfl⟩
    refine ⟨v, hv, e, he, ?_⟩
    rw [if_pos rfl, hg.target v hv e he]

/-- What is reachable is what edges lead to. -/
theorem mem_reachableFrom {starts : List VertexId} {id : VertexId} :
    id ∈ g.reachableFrom starts ↔
      ∃ start ∈ starts, Relation.TransGen g.LeadsTo start id := by
  have hnext : (fun a b => b ∈ g.consumersOf a) = g.LeadsTo := by
    funext a b
    exact propext hg.mem_consumersOf
  have hclosed : ∀ a, a ∈ starts ∨ a ∈ g.vertices.map (·.id) →
      ∀ b ∈ g.consumersOf a, b ∈ g.vertices.map (·.id) := by
    intro a _ b hb
    obtain ⟨e, he, -, rfl⟩ := hg.mem_consumersOf.mp hb
    obtain ⟨v, hv, hev⟩ := mem_edges.mp he
    exact List.mem_map.mpr ⟨v, hv, (hg.target v hv e hev).symm⟩
  have hfuel : starts.length +
      (g.vertices.map (·.id)).countP (· ∉ (∅ : Std.TreeSet VertexId)) ≤
        starts.length + g.vertices.length := by
    have := List.countP_le_length (l := g.vertices.map (·.id))
      (p := (· ∉ (∅ : Std.TreeSet VertexId)))
    rw [List.length_map] at this
    omega
  rw [reachableFrom, mem_explore (g.vertices.map (·.id)) (by simp) hclosed
    hfuel]
  simp [Search.Follows, hnext]

end WellFormed

theorem mem_snapshotMembers {group : String} {id : VertexId} :
    id ∈ g.snapshotMembers group ↔ g.IsMember group id := by
  simp only [snapshotMembers, List.mem_map, List.mem_filter,
    decide_eq_true_eq, IsMember]
  constructor
  · rintro ⟨v, ⟨hv, hgroup⟩, hid⟩
    exact ⟨v, hv, hid, hgroup⟩
  · rintro ⟨v, hv, hid, hgroup⟩
    exact ⟨v, ⟨hv, hgroup⟩, hid⟩

/-- A vertex feeds a group if it is none of its members and an edge leads
from it to one. -/
theorem WellFormed.feedsGroup_iff (hg : g.WellFormed) {group : String}
    {v : JobVertex} (hv : v ∈ g.vertices) :
    g.feedsGroup v.id group = true ↔
      ¬ g.IsMember group v.id ∧
        ∃ m, g.IsMember group m ∧ g.LeadsTo v.id m := by
  have hself : g.IsMember group v.id ↔ v.snapshotGroup = some group := by
    constructor
    · rintro ⟨w, hw, hid, hgroup⟩
      exact hg.vertex_inj hw hv hid ▸ hgroup
    · exact fun hgroup => ⟨v, hv, rfl, hgroup⟩
  rw [feedsGroup, hg.vertex_eq_ok.mpr ⟨hv, rfl⟩, hself]
  simp only [Bool.and_eq_true, decide_eq_true_eq, List.any_eq_true]
  refine and_congr_right fun _ => ⟨?_, ?_⟩
  · rintro ⟨w, hw, hgroup, e, he, hproducer⟩
    exact ⟨w.id, ⟨w, hw, rfl, hgroup⟩, e, mem_edges.mpr ⟨w, hw, he⟩,
      hproducer, hg.target w hw e he⟩
  · rintro ⟨_, ⟨w, hw, rfl, hgroup⟩, e, he, hproducer, htarget⟩
    obtain ⟨u, hu, heu⟩ := mem_edges.mp he
    have huw : u = w := hg.vertex_inj hu hw (by
      rw [← hg.target u hu e heu, htarget])
    exact ⟨w, hw, hgroup, e, huw ▸ heu, hproducer⟩

end JobGraph

end ControlPlane
