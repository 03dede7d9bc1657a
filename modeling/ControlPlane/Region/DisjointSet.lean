/-! # Disjoint sets

A forest over the numbers below a bound: two numbers belong together when
they have the same root. Finding a root halves the path to it, and joining
two trees hangs the one of lower rank below the other. -/
namespace ControlPlane

/-- A partition of the numbers below the size of its arrays. -/
structure DisjointSet where
  parent : Array Nat
  rank : Array UInt8
deriving DecidableEq, Repr

namespace DisjointSet

/-- The partition of the numbers below `n` into singletons. -/
def singletons (n : Nat) : DisjointSet where
  parent := Array.range n
  rank := Array.replicate n 0

/-- The number of elements. -/
def size (s : DisjointSet) : Nat := s.parent.size

/-- The parent of an element; a root is its own parent. -/
def parentOf (s : DisjointSet) (x : Nat) : Nat := s.parent[x]?.getD x

/-- The rank of an element. -/
def rankOf (s : DisjointSet) (x : Nat) : UInt8 := s.rank[x]?.getD 0

/-- Hangs `x` below `y`. -/
def setParent (s : DisjointSet) (x y : Nat) : DisjointSet :=
  { s with parent := s.parent.setIfInBounds x y }

/-- Climbs from `x` towards its root, two steps at a time, hanging every
element it leaves below its grandparent. -/
def climb : Nat → DisjointSet → Nat → Nat × DisjointSet
  | 0, s, x => (x, s)
  | fuel + 1, s, x =>
    if s.parentOf x = x then (x, s)
    else
      let grandparent := s.parentOf (s.parentOf x)
      climb fuel (s.setParent x grandparent) grandparent

/-- The root of an element. A path has no more steps than there are
elements. -/
def find (s : DisjointSet) (x : Nat) : Nat × DisjointSet := climb s.size s x

/-- Joins the trees of two roots. -/
def link (s : DisjointSet) (a b : Nat) : DisjointSet :=
  if a = b then s
  else if s.rankOf a < s.rankOf b then s.setParent a b
  else if s.rankOf b < s.rankOf a then s.setParent b a
  else
    let rank := s.rankOf a + 1
    { parent := s.parent.setIfInBounds b a
      rank := s.rank.setIfInBounds a rank }

/-- Joins the sets of two elements. -/
def union (s : DisjointSet) (a b : Nat) : DisjointSet :=
  let (rootA, s) := s.find a
  let (rootB, s) := s.find b
  s.link rootA rootB

end DisjointSet

end ControlPlane
