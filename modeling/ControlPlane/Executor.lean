/-! # Serialized execution

All access to a job's state runs through one queue, one request after the
other. A request that breaks off does not stop the queue: what it changed
before stays changed, and the next request runs on that state. -/
namespace ControlPlane

universe u v

/-- Why the reply to a request is missing. -/
inductive ExecutorError where
  /-- The queue takes no more requests. -/
  | shutDown
  /-- The reply was thrown away. -/
  | replyDropped
  /-- The request broke off, with a message if it had one. -/
  | brokenOff (text : Option String)
deriving DecidableEq, Repr

/-- The wording of an executor error. -/
def ExecutorError.message : ExecutorError → String
  | shutDown => "control executor is shut down"
  | replyDropped => "control executor dropped the reply"
  | brokenOff text =>
    s!"control task panicked: " ++ text.getD "unknown panic payload"

/-- How a request ends: with a reply, or by breaking off with a message or
with something that is none. -/
inductive Outcome (α : Type v) where
  | reply (value : α)
  | brokenOff (text : Option String)
deriving DecidableEq, Repr

/-- A request on a state. -/
abbrev Request (σ : Type u) (α : Type v) := σ → σ × Outcome α

namespace Request

variable {σ : Type u} {α : Type v}

/-- A request that only looks at the state. -/
def inspect (f : σ → α) : Request σ α := fun s => (s, .reply (f s))

/-- A request that breaks off at once. -/
def breakOff (text : Option String) : Request σ α :=
  fun s => (s, .brokenOff text)

/-- Runs a request on the state of an executor. -/
def submit (request : Request σ α) (s : σ) : σ × Except ExecutorError α :=
  match request s with
  | (s, .reply value) => (s, .ok value)
  | (s, .brokenOff text) => (s, .error (.brokenOff text))

end Request

end ControlPlane
