import ControlPlane.JobGraph.Record
import ControlPlane.Main
import ControlPlane.Proofs.Checkpoint.RunningStatus
import ControlPlane.Proofs.Failover
import ControlPlane.Proofs.Job.Released
import ControlPlane.Proofs.Topology.Consistent
import ControlPlane.Proofs.Topology.Partitioned
import ControlPlane.Proofs.JobGraph.Reach
import ControlPlane.Proofs.Topology.Laid
import ControlPlane.Proofs.Topology.Feeders
import ControlPlane.Proofs.Checkpoint.Scope
import ControlPlane.Proofs.Checkpoint.Shares
import ControlPlane.Proofs.Checkpoint.Plan
import ControlPlane.Proofs.Checkpoint.Barriers
import ControlPlane.Proofs.Checkpoint.TaskStates
import ControlPlane.Proofs.Topology.Numbered
import ControlPlane.Proofs.JobGraph.Depth
import ControlPlane.Proofs.Topology.Refused
import ControlPlane.Proofs.Topology.Views
import ControlPlane.Proofs.Topology.Cohesive
import ControlPlane.Proofs.Region.InOrder
import ControlPlane.Proofs.Topology.Rebuilt
import ControlPlane.Proofs.Topology.Schedulable
import ControlPlane.Proofs.Checkpoint.Agreement
import ControlPlane.Proofs.Checkpoint.Groups
import ControlPlane.Proofs.Release.Ordered
import ControlPlane.Proofs.Release.Interrupted
import ControlPlane.Proofs.Job.Failing
import ControlPlane.Proofs.Job.Restarted
import ControlPlane.Proofs.Topology.InOrder
import ControlPlane.Proofs.Checkpoint.Lists
import ControlPlane.Proofs.Definition.Loaded
import ControlPlane.Proofs.Job.Countdowns
import ControlPlane.Proofs.Job.Known
import ControlPlane.Proofs.Topology.Rescaled
import ControlPlane.Proofs.Checked.Build
import ControlPlane.Proofs.Topology.Inputs
import ControlPlane.Proofs.Topology.Pointwise
import ControlPlane.Proofs.JobGraph.Outputs
import ControlPlane.Proofs.Checkpoint.WholeScope
import ControlPlane.Proofs.Job.Attempts
import ControlPlane.Proofs.Definition.States
import ControlPlane.Proofs.JobGraph.Downstream
import ControlPlane.Proofs.Uuid
import ControlPlane.Proofs.Document
import ControlPlane.Proofs.JobGraph.Record
import ControlPlane.Proofs.Inspection.Names
import ControlPlane.Proofs.Inspection.Partitions
import ControlPlane.Proofs.Region.ReverseOrder
import ControlPlane.Proofs.Region.Ranks
import ControlPlane.Proofs.JobGraph.Calls
