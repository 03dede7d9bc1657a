import ControlPlane.Ident

/-! # Checkpoint scopes -/
namespace ControlPlane.Checkpoint

/-- The part of a job that a checkpoint covers. -/
inductive Scope where
  /-- Every task of the job. -/
  | job
  /-- The members of a snapshot group and everything downstream of them. -/
  | group (name : String)
  /-- A vertex about to be rescaled and everything downstream of it. The
  blocked vertices receive the barrier. -/
  | rescale (vertex : VertexId) (blocked : List VertexId)
deriving DecidableEq, Inhabited, Repr

/-- The wording of a scope. -/
def Scope.message : Scope → String
  | job => "job"
  | group name => s!"snapshot group '{name}'"
  | rescale vertex blocked =>
    s!"rescale of {vertex} ({blocked.length} blocked)"

instance : ToString Scope := ⟨Scope.message⟩

end ControlPlane.Checkpoint
