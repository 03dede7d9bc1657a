/-! # Strongly connected components

A depth-first search with an explicit work stack. A node is numbered when
it is opened and keeps the lowest number it is known to reach among the
nodes whose component is still open; a node that reaches nothing lower than
itself closes a component. Components are found in reverse topological
order. -/
namespace ControlPlane

/-- A search for components under way. -/
structure ComponentSearch where
  /-- The number of every node that was opened. -/
  index : Array (Option Nat)
  /-- The lowest number each node is known to reach. -/
  low : Array Nat
  /-- Whether the component of a node is still open. -/
  isOpen : Array Bool
  /-- The nodes of open components, the latest first. -/
  stack : List Nat := []
  /-- The number of the next node to be opened. -/
  next : Nat := 0
  /-- The nodes being visited, the latest first, each with the successors
  not yet looked at. -/
  work : List (Nat × List Nat) := []
  /-- The components found so far, the latest first. -/
  components : List (List Nat) := []
deriving DecidableEq, Repr

namespace ComponentSearch

/-- The search over `n` nodes before any is opened. -/
def start (n : Nat) : ComponentSearch where
  index := Array.replicate n none
  low := Array.replicate n 0
  isOpen := Array.replicate n false

/-- The number of a node, if it was opened. -/
def indexOf (s : ComponentSearch) (node : Nat) : Option Nat :=
  s.index[node]?.join

/-- The lowest number a node is known to reach. -/
def lowOf (s : ComponentSearch) (node : Nat) : Nat := s.low[node]?.getD 0

/-- Records that a node reaches a number. -/
def lower (s : ComponentSearch) (node n : Nat) : ComponentSearch :=
  { s with low := s.low.modify node (min · n) }

/-- Numbers a node and starts to visit its successors. -/
def openNode (s : ComponentSearch) (node : Nat) (successors : List Nat) :
    ComponentSearch :=
  { s with
    index := s.index.setIfInBounds node (some s.next)
    low := s.low.setIfInBounds node s.next
    isOpen := s.isOpen.setIfInBounds node true
    stack := node :: s.stack
    next := s.next + 1
    work := (node, successors) :: s.work }

/-- Takes the component of a node, which is everything above it on the
stack and the node itself. -/
def closeComponent (s : ComponentSearch) (node : Nat) : ComponentSearch :=
  let (above, rest) := s.stack.span (· ≠ node)
  let component := above ++ rest.take 1
  { s with
    isOpen := component.foldl (·.setIfInBounds · false) s.isOpen
    stack := rest.drop 1
    components := component :: s.components }

/-- Leaves a node whose successors are all visited: the node that opened it
reaches whatever it reaches. -/
def leave (s : ComponentSearch) (node : Nat)
    (work : List (Nat × List Nat)) : ComponentSearch :=
  let s := { s with work }
  let s := match work with
    | [] => s
    | (parent, _) :: _ => s.lower parent (s.lowOf node)
  if s.indexOf node = some (s.lowOf node) then s.closeComponent node else s

/-- Looks at one more successor of the node being visited, or leaves it. -/
def step (successors : Nat → List Nat) (s : ComponentSearch) :
    ComponentSearch :=
  match s.work with
  | [] => s
  | (node, next :: rest) :: work =>
    let s := { s with work := (node, rest) :: work }
    match s.indexOf next with
    | none => s.openNode next (successors next)
    | some n =>
      if s.isOpen[next]?.getD false then s.lower node n else s
  | (node, []) :: work => s.leave node work

/-- Steps until no node is being visited, at most as often as given. -/
def run (successors : Nat → List Nat) : Nat → ComponentSearch →
    ComponentSearch
  | 0, s => s
  | fuel + 1, s =>
    if s.work.isEmpty then s else run successors fuel (s.step successors)

end ComponentSearch

/-- The strongly connected components of the graph on the numbers below `n`
with the given successors. A search takes one step for every node and one
for every edge. -/
def stronglyConnected (n : Nat) (successors : Nat → List Nat) :
    List (List Nat) :=
  let steps := n + ((List.range n).flatMap successors).length
  let search := (List.range n).foldl (fun s root =>
    if (s.indexOf root).isSome then s
    else (s.openNode root (successors root)).run successors steps)
    (ComponentSearch.start n)
  search.components.reverse

end ControlPlane
