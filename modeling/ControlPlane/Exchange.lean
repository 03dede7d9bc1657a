/-! # Data exchanges

How an edge of the job hands data from producers to consumers: when the
consumer may read, and which subtasks are wired together. -/
namespace ControlPlane

/-- When the data of a partition may be read. -/
inductive ResultKind where
  /-- While the producer is still running. -/
  | pipelined
  /-- Once the producer has written the whole result. -/
  | blocking
deriving DecidableEq, Inhabited, Repr

/-- Which subtasks of producer and consumer an edge wires together. -/
inductive Pattern where
  /-- Fixed subtask-to-subtask or range wiring. -/
  | pointwise
  /-- Every producer subtask feeds every consumer subtask. -/
  | allToAll
deriving DecidableEq, Inhabited, Repr

namespace ResultKind

/-- Whether the data is streamed. -/
def isPipelined (k : ResultKind) : Bool := k = pipelined

/-- Whether the data is buffered as a whole. -/
def isBlocking (k : ResultKind) : Bool := k = blocking

/-- The written name of a kind. -/
def name : ResultKind → String
  | pipelined => "PIPELINED"
  | blocking => "BLOCKING"

instance : ToString ResultKind := ⟨name⟩

/-- The kind with a written name. -/
def ofName? (s : String) : Option ResultKind :=
  [pipelined, blocking].find? (·.name = s)

@[simp] theorem ofName?_name (k : ResultKind) : ofName? k.name = some k := by
  cases k <;> decide

end ResultKind

namespace Pattern

/-- The written name of a pattern. -/
def name : Pattern → String
  | pointwise => "POINTWISE"
  | allToAll => "ALL_TO_ALL"

instance : ToString Pattern := ⟨name⟩

/-- The pattern with a written name. -/
def ofName? (s : String) : Option Pattern :=
  [pointwise, allToAll].find? (·.name = s)

@[simp] theorem ofName?_name (p : Pattern) : ofName? p.name = some p := by
  cases p <;> decide

end Pattern

end ControlPlane
