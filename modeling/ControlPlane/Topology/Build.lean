import ControlPlane.JobGraph.Order
import ControlPlane.Topology.Expand
import ControlPlane.Topology.Regions

/-! # Building a topology -/
namespace ControlPlane

/-- Expands a job graph into its topology and pipelined regions. Fails when
the graph is cyclic, has a vertex without subtasks, or places co-located
subtasks in different regions. -/
def Topology.ofJobGraph (graph : JobGraph) : Except Error Topology := do
  let order ← graph.sorted
  let t ← (order.map (·.id)).foldlM addOperator { graph }
  let t := t.computeRegions
  t.checkCoLocation
  return t

end ControlPlane
