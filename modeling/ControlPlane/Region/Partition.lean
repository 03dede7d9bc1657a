import ControlPlane.Ascending
import ControlPlane.Region.Component
import ControlPlane.Region.DisjointSet

/-! # Partition into regions

Members joined by a pipelined dependency share a region. Regions that
depend on each other in a cycle, which is possible through blocking
dependencies, are merged, since neither could be scheduled or restarted
without the other. -/
namespace ControlPlane

/-- A directed data dependency between two members. -/
structure Dependency where
  producer : Nat
  consumer : Nat
  pipelined : Bool
deriving DecidableEq, Repr

namespace Region

/-- The members below `n`, joined along the pipelined dependencies. -/
def joinPipelined (n : Nat) (deps : List Dependency) : DisjointSet :=
  (deps.filter (·.pipelined)).foldl
    (fun s dep => s.union dep.producer dep.consumer)
    (DisjointSet.singletons n)

/-- Classes of members under construction, numbered by first member. -/
structure Grouping where
  sets : DisjointSet
  /-- The class that belongs to a root. -/
  byRoot : Std.TreeMap Nat Nat := ∅
  /-- The members of each class, the latest first. -/
  classes : Array (List Nat) := #[]
  /-- The class of each member. -/
  classOf : Array Nat := #[]

/-- Puts the next member into the class of its root. -/
def Grouping.add : Grouping → Nat → Grouping
  | { sets, byRoot, classes, classOf }, member =>
    let (root, sets) := sets.find member
    match byRoot[root]? with
    | some c =>
      { sets
        byRoot
        classes := classes.modify c (member :: ·)
        classOf := classOf.push c }
    | none =>
      { sets
        byRoot := byRoot.insert root classes.size
        classes := classes.push [member]
        classOf := classOf.push classes.size }

/-- The classes of the members below `n`. -/
def grouping (n : Nat) (sets : DisjointSet) : Grouping :=
  (List.range n).foldl Grouping.add { sets }

/-- The classes with their members ascending, in order of first member. -/
def Grouping.members (g : Grouping) : Array (List Nat) :=
  g.classes.map List.reverse

/-- Lists the class of the consumer behind the successors of the class of
the producer, unless the two are one class or it is listed already. -/
def addSuccessor (g : Grouping) (succ : Array (List Nat)) (dep : Dependency) :
    Array (List Nat) :=
  match g.classOf[dep.producer]?, g.classOf[dep.consumer]? with
  | some source, some target =>
    if source = target then succ
    else succ.modify source fun targets =>
      if target ∈ targets then targets else targets ++ [target]
  | _, _ => succ

/-- For every class, the other classes that depend on it, each once and in
the order of the dependencies. -/
def successors (g : Grouping) (deps : List Dependency) : Array (List Nat) :=
  deps.foldl (addSuccessor g) (Array.replicate g.classes.size [])

/-- The regions of the members below `n`: each ascending, and ordered by
their smallest members. No two regions share a member, so ascending lists
are in this order. -/
def partition (n : Nat) (deps : List Dependency) : List (List Nat) :=
  let g := grouping n (joinPipelined n deps)
  let classes := g.members
  let succ := successors g deps
  let components := stronglyConnected classes.size (succ[·]?.getD [])
  if components.length = classes.size then classes.toList
  else
    ascending <| components.map fun component =>
      ascending (component.flatMap (classes[·]?.getD []))

end Region

end ControlPlane
