import Std.Data.TreeSet

/-! # Search along successors

A search from some starts along a relation given by successor lists. It
serves the job graph, along its edges, and failover, along what makes a
region restart. -/
namespace ControlPlane

universe u

variable {α : Type u} [Ord α]

/-- A search under way. -/
structure Search (α : Type u) [Ord α] where
  /-- What was found and is still to be followed, the latest first. -/
  pending : List α
  /-- Everything found so far. -/
  seen : Std.TreeSet α

namespace Search

/-- Finds an element, which is to be followed if it is new. -/
def find (s : Search α) (x : α) : Search α :=
  if x ∈ s.seen then s
  else { pending := x :: s.pending, seen := s.seen.insert x }

/-- Follows one pending element after the other until there is none, at
most as many as given. -/
def run (next : α → List α) : Nat → Search α → Search α
  | 0, s => s
  | fuel + 1, s =>
    match s.pending with
    | [] => s
    | x :: pending =>
      run next fuel ((next x).foldl find { s with pending })

end Search

/-- What is found from some starts, beside what counts as seen before.
Follows at most as many elements as given. -/
def explore (next : α → List α) (fuel : Nat) (starts : List α)
    (seen : Std.TreeSet α) : Std.TreeSet α :=
  (Search.run next fuel ⟨starts, seen⟩).seen

end ControlPlane
