import ControlPlane.Ascending
import ControlPlane.Config
import ControlPlane.Topology.Basic

/-! # Release of consumed data

A blocking group can be released once every region that reads it has
finished, and a region has finished once all its tasks have. The strategy
follows both by the tasks reported as finished or as running again. -/
namespace ControlPlane

/-- The regions that read one blocking group. -/
structure ReaderView where
  /-- All readers, ascending. -/
  regions : List RegionIndex := []
  /-- The readers that have not finished, ascending. -/
  unfinished : List RegionIndex := []
deriving DecidableEq, Inhabited, Repr

namespace ReaderView

/-- Adds a reader, which has not finished yet. -/
def add (v : ReaderView) (region : RegionIndex) : ReaderView where
  regions := insertAscending region v.regions
  unfinished := insertAscending region v.unfinished

/-- Marks a reader as finished. -/
def finish (v : ReaderView) (region : RegionIndex) : ReaderView :=
  { v with unfinished := v.unfinished.filter (· ≠ region) }

/-- Marks a reader as running again; other regions are ignored. -/
def reopen (v : ReaderView) (region : RegionIndex) : ReaderView :=
  if region ∈ v.regions then
    { v with unfinished := insertAscending region v.unfinished }
  else v

/-- Whether every reader has finished. -/
def isFinished (v : ReaderView) : Bool := v.unfinished.isEmpty

end ReaderView

/-- What is left to finish before blocking groups can be released. -/
structure RegionRelease where
  /-- The unfinished tasks of every region, ascending. -/
  unfinished : Array (List TaskIndex) := #[]
  /-- The readers of every blocking group that is read. -/
  readers : Std.TreeMap GroupIndex ReaderView := ∅

namespace RegionRelease

/-! ## Starting -/

/-- Adds a region of which no task has finished. -/
def addRegion (r : RegionRelease) (region : PipelinedRegion) :
    RegionRelease where
  unfinished := r.unfinished.push region.tasks
  readers := region.blockingGroups.foldl (fun readers group =>
    readers.insert group ((readers.getD group {}).add region.index)) r.readers

/-- The state for a topology of which no task has finished. -/
def ofTopology (t : Topology) : RegionRelease :=
  t.regions.foldl addRegion {}

/-! ## Regions -/

/-- The position of a task and its region, if the region is followed. -/
def locate (r : RegionRelease) (t : Topology) (id : TaskId) :
    Except Error (TaskIndex × RegionIndex) := do
  let index ← t.taskAt id
  match t.regionOf[index]? with
  | some region =>
    if region < r.unfinished.size then return (index, region)
    else throw (.unknownTask id)
  | none => throw (.unknownTask id)

/-- The blocking groups that a region reads. -/
def groupsRead (t : Topology) (region : RegionIndex) : List GroupIndex :=
  (t.regions[region]?.map (·.blockingGroups)).getD []

/-- Changes the views of the given groups. -/
def updateReaders (r : RegionRelease) (groups : List GroupIndex)
    (f : ReaderView → ReaderView) : RegionRelease :=
  { r with
    readers := groups.foldl (fun readers group => readers.modify group f)
      r.readers }

/-- Marks one task of a region as unfinished. -/
def reopenTask (r : RegionRelease) (region : RegionIndex)
    (task : TaskIndex) : RegionRelease :=
  { r with
    unfinished := r.unfinished.modify region (insertAscending task) }

/-- Marks a region as unfinished with all groups it reads. -/
def reopenRegion (r : RegionRelease) (t : Topology) (region : RegionIndex) :
    RegionRelease :=
  r.updateReaders (groupsRead t region) (·.reopen region)

/-! ## Reports -/

/-- Records that a task has finished. Returns the groups that its region
reads and that can now be released, if the region has finished as well. -/
def taskFinished (r : RegionRelease) (t : Topology) (id : TaskId) :
    Except Error (RegionRelease × List GroupIndex) := do
  let (index, region) ← r.locate t id
  let r := { r with
    unfinished := r.unfinished.modify region (·.filter (· ≠ index)) }
  if r.unfinished[region]? ≠ some [] then
    return (r, [])
  let groups := groupsRead t region
  let r := r.updateReaders groups (·.finish region)
  return (r, groups.filter fun group =>
    (r.readers[group]?.map (·.isFinished)).getD false)

/-- Records that a task runs again. -/
def taskReopened (r : RegionRelease) (t : Topology) (id : TaskId) :
    Except Error RegionRelease := do
  let (index, region) ← r.locate t id
  return (r.reopenTask region index).reopenRegion t region

/-- Marks tasks of a region as unfinished, up to the first unknown one. -/
def reopenTasks (t : Topology) (region : RegionIndex) :
    List TaskId → RegionRelease → RegionRelease × Except Error Unit
  | [], r => (r, .ok ())
  | id :: ids, r =>
    match t.taskAt id with
    | .error e => (r, .error e)
    | .ok index => reopenTasks t region ids (r.reopenTask region index)

/-- Records that tasks have joined the region of a sibling. Tasks in front
of an unknown one stay recorded. -/
def tasksAdded (r : RegionRelease) (t : Topology) (sibling : TaskId)
    (ids : List TaskId) : RegionRelease × Except Error Unit :=
  match r.locate t sibling with
  | .error e => (r, .error e)
  | .ok (_, region) =>
    match reopenTasks t region ids r with
    | (r, .error e) => (r, .error e)
    | (r, .ok ()) =>
      (if ids.isEmpty then r else r.reopenRegion t region, .ok ())

end RegionRelease

/-! ## Strategies -/

/-- A release strategy with what it remembers. -/
inductive ReleaseStrategy where
  /-- Releases what every reading region has finished with. -/
  | region (state : RegionRelease)
  /-- Keeps everything. -/
  | never

namespace ReleaseStrategy

/-- The strategy of a kind, at the start of a topology. -/
def start (kind : ReleaseKind) (t : Topology) : ReleaseStrategy :=
  match kind with
  | .region => .region (.ofTopology t)
  | .never => .never

/-- Records that a task has finished, and returns the groups that can now
be released. -/
def taskFinished (s : ReleaseStrategy) (t : Topology) (id : TaskId) :
    Except Error (ReleaseStrategy × List GroupIndex) :=
  match s with
  | .region r => do
    let (r, groups) ← r.taskFinished t id
    return (.region r, groups)
  | .never => .ok (.never, [])

/-- Records that a task runs again. -/
def taskReopened (s : ReleaseStrategy) (t : Topology) (id : TaskId) :
    Except Error ReleaseStrategy :=
  match s with
  | .region r => (r.taskReopened t id).map .region
  | .never => .ok .never

/-- Records that tasks have joined the region of a sibling. -/
def tasksAdded (s : ReleaseStrategy) (t : Topology) (sibling : TaskId)
    (ids : List TaskId) : ReleaseStrategy × Except Error Unit :=
  match s with
  | .region r =>
    let (r, result) := r.tasksAdded t sibling ids
    (.region r, result)
  | .never => (.never, .ok ())

end ReleaseStrategy

end ControlPlane
