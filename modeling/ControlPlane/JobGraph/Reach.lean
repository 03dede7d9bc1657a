import ControlPlane.Explore
import ControlPlane.JobGraph.Basic

/-! # Reachability in a job graph

Which vertices lie downstream of a vertex or of a snapshot group, found by
a search along the edges. -/
namespace ControlPlane

namespace JobGraph

/-- The vertices that read directly from a vertex, once per edge. -/
def consumersOf (g : JobGraph) (id : VertexId) : List VertexId :=
  g.vertices.flatMap fun v =>
    v.inputs.filterMap fun edge =>
      if edge.producer = id then some v.id else none

/-- The vertices reachable from some start through one or more edges. Every
vertex followed is a start or is found for the first time, which bounds the
search. -/
def reachableFrom (g : JobGraph) (starts : List VertexId) :
    Std.TreeSet VertexId :=
  explore g.consumersOf (starts.length + g.vertices.length) starts ∅

/-- Whether `id` is reachable from `start` through one or more edges. -/
def isDownstreamOf (g : JobGraph) (id start : VertexId) : Bool :=
  id ∈ g.reachableFrom [start]

/-- The ids of the members of a snapshot group. -/
def snapshotMembers (g : JobGraph) (group : String) : List VertexId :=
  (g.vertices.filter (·.snapshotGroup = some group)).map (·.id)

/-- Whether `id` lies outside a snapshot group but is reachable from a
member of it. -/
def isDownstreamOfGroup (g : JobGraph) (id : VertexId) (group : String) :
    Bool :=
  let members := g.snapshotMembers group
  id ∉ members && id ∈ g.reachableFrom members

/-- Whether `id` lies outside a snapshot group but feeds a member of it
directly. -/
def feedsGroup (g : JobGraph) (id : VertexId) (group : String) : Bool :=
  match g.vertex id with
  | .error _ => false
  | .ok source =>
    source.snapshotGroup ≠ some group &&
      g.vertices.any fun v =>
        v.snapshotGroup = some group && v.inputs.any (·.producer = id)

end JobGraph

end ControlPlane
