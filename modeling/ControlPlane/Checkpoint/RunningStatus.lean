/-! # Running status

A set of subtasks of one operator, one bit per subtask, in words of 64
bits. Bits outside the range of subtasks stay clear, so equal sets have
equal words. -/
namespace ControlPlane.Checkpoint

/-- The running subtasks among the first `length` ones. -/
structure RunningStatus where
  words : Array (BitVec 64)
  length : Nat
deriving DecidableEq, Repr

namespace RunningStatus

/-- The status in which none of `n` subtasks runs. -/
def empty (n : Nat) : RunningStatus where
  words := Array.replicate ((n + 63) / 64) 0#64
  length := n

/-- Adds a subtask in range. -/
def insert (s : RunningStatus) (subtask : Nat) : RunningStatus :=
  { s with
    words := s.words.modify (subtask / 64)
      (· ||| BitVec.twoPow 64 (subtask % 64)) }

/-- Whether a subtask runs; none out of range does. -/
def contains (s : RunningStatus) (subtask : Nat) : Bool :=
  subtask < s.length &&
    (s.words[subtask / 64]?.getD 0#64).getLsbD (subtask % 64)

/-- The number of bits set in a word. -/
def bitCount (word : BitVec 64) : Nat :=
  (List.range 64).countP word.getLsbD

/-- The number of running subtasks. -/
def cardinality (s : RunningStatus) : Nat :=
  s.words.foldl (fun count word => count + bitCount word) 0

/-- Whether no subtask runs. -/
def noneRunning (s : RunningStatus) : Bool := s.words.all (· == 0#64)

/-- Whether every subtask runs. -/
def allRunning (s : RunningStatus) : Bool := s.cardinality = s.length

/-- Forgets every running subtask. -/
def clear (s : RunningStatus) : RunningStatus :=
  { s with words := s.words.map fun _ => 0#64 }

end RunningStatus

end ControlPlane.Checkpoint
