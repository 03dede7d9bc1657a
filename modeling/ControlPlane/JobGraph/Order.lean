import ControlPlane.JobGraph.Basic

/-! # Topological order of a job graph

Vertices are taken from a queue once all their inputs are taken. The queue
starts with the vertices without inputs, in insertion order, so the order
found is determined by the graph. Vertices left over lie on a cycle or
behind one. -/
namespace ControlPlane.JobGraph

/-- Checks that every vertex has subtasks and known producers. -/
def validate (g : JobGraph) : Except Error Unit :=
  g.vertices.forM fun v => do
    if v.parallelism = 0 then
      throw (.invalidGraph (.noSubtasks v.name))
    v.inputs.forM fun edge =>
      if g.positions.contains edge.producer then pure ()
      else throw (.invalidGraph (.unknownProducer v.name edge.producer))

/-- The positions of the vertices that read from the vertex at a position,
once per edge. -/
def dependents (g : JobGraph) (pos : Nat) : List Nat :=
  g.vertices.zipIdx.flatMap fun (v, reader) =>
    v.inputs.filterMap fun edge =>
      if g.positions[edge.producer]? = some pos then some reader else none

/-- A sort under way. -/
structure Sorting where
  /-- For every vertex, the number of inputs not taken yet. -/
  waiting : List Nat
  /-- The vertices ready to be taken. -/
  queue : List Nat
  /-- The vertices taken so far. -/
  taken : List Nat := []
deriving DecidableEq, Repr

/-- Records that one input of a vertex is taken; the last one makes the
vertex ready. -/
def Sorting.release (s : Sorting) (pos : Nat) : Sorting :=
  let waiting := s.waiting.modify pos (· - 1)
  if waiting[pos]? = some 0 then
    { s with waiting, queue := s.queue ++ [pos] }
  else
    { s with waiting }

/-- Takes ready vertices until there are none, at most as many as given. -/
def Sorting.run (g : JobGraph) : Nat → Sorting → Sorting
  | 0, s => s
  | fuel + 1, s =>
    match s.queue with
    | [] => s
    | pos :: queue =>
      run g fuel
        ((g.dependents pos).foldl release
          { s with queue, taken := s.taken ++ [pos] })

/-- The sort before any vertex is taken. -/
def Sorting.start (g : JobGraph) : Sorting where
  waiting := g.vertices.map (·.inputs.length)
  queue := (g.vertices.zipIdx.filter (·.1.inputs.isEmpty)).map (·.2)

/-- The sort of a graph, run to its end: no vertex is taken twice. -/
def sorting (g : JobGraph) : Sorting :=
  (Sorting.start g).run g g.vertices.length

/-- The vertices in topological order. -/
def sorted (g : JobGraph) : Except Error (List JobVertex) := do
  g.validate
  let s := g.sorting
  if s.taken.length ≠ g.vertices.length then
    let stuck := (g.vertices.zip s.waiting).filter (0 < ·.2)
    throw (.invalidGraph (.cycle (stuck.map (·.1.name))))
  return s.taken.filterMap (g.vertices[·]?)

end ControlPlane.JobGraph
