import ControlPlane.Document.Json

/-! # Reports

What the program prints about a job: its regions, a checkpoint plan, or the
tasks to restart. A report is written as coloured text or as JSON. -/
namespace ControlPlane.Inspection

/-- One pipelined region. -/
structure RegionEntry where
  index : Nat
  tasks : List String
  /-- The number of blocking groups the region reads. -/
  blockingInputs : Nat
deriving DecidableEq, Repr

/-- The pipelined regions of a job. -/
structure RegionsReport where
  job : String
  /-- The number of tasks. -/
  tasks : Nat
  regions : List RegionEntry
deriving DecidableEq, Repr

/-- A checkpoint plan. -/
structure PlanReport where
  job : String
  scope : String
  trigger : List String
  waitFor : List String
  commitTo : List String
  finished : List String
  fullyFinished : List String
deriving DecidableEq, Repr

/-- The tasks to restart after a failure. -/
structure FailoverReport where
  job : String
  failed : String
  cause : String
  restart : List String
deriving DecidableEq, Repr

/-- A report of any kind. -/
inductive Report where
  | regions (report : RegionsReport)
  | plan (report : PlanReport)
  | failover (report : FailoverReport)
deriving DecidableEq, Repr

/-! ## As documents -/

/-- A list of texts. -/
def texts (items : List String) : Document := .list (items.map .text)

/-- The fields of a region. -/
def RegionEntry.toDocument (r : RegionEntry) : Document :=
  .table [
    ("index", .ofNat r.index),
    ("tasks", texts r.tasks),
    ("blocking_inputs", .ofNat r.blockingInputs)]

/-- The fields of a report on regions. -/
def RegionsReport.toDocument (r : RegionsReport) : Document :=
  .table [
    ("job", .text r.job),
    ("tasks", .ofNat r.tasks),
    ("regions", .list (r.regions.map RegionEntry.toDocument))]

/-- The fields of a report on a plan. -/
def PlanReport.toDocument (r : PlanReport) : Document :=
  .table [
    ("job", .text r.job),
    ("scope", .text r.scope),
    ("trigger", texts r.trigger),
    ("wait_for", texts r.waitFor),
    ("commit_to", texts r.commitTo),
    ("finished", texts r.finished),
    ("fully_finished", texts r.fullyFinished)]

/-- The fields of a report on a failure. -/
def FailoverReport.toDocument (r : FailoverReport) : Document :=
  .table [
    ("job", .text r.job),
    ("failed", .text r.failed),
    ("cause", .text r.cause),
    ("restart", texts r.restart)]

/-- The fields of a report; its kind shows in nothing else. -/
def Report.toDocument : Report → Document
  | regions report => report.toDocument
  | plan report => report.toDocument
  | failover report => report.toDocument

/-! ## As coloured text -/

/-- The colours of a terminal. -/
inductive Colour where
  | plain
  | magenta
  | cyan
  | green
  | yellow
  | darkGrey
deriving DecidableEq, Repr

/-- The code of a colour. -/
def Colour.code : Colour → String
  | plain => "39"
  | magenta => "38;5;13"
  | cyan => "38;5;14"
  | green => "38;5;10"
  | yellow => "38;5;11"
  | darkGrey => "38;5;8"

/-- The sequence that switches a terminal to a colour. When colours are not
wanted the sequence stays, without a code. -/
def Colour.sequence (colours : Bool) (colour : Colour) : String :=
  "\x1b[" ++ (if colours then colour.code else "") ++ "m"

/-- The sequence that switches all colours off. -/
def noColour : String := "\x1b[0m"

/-- A text filled up with blanks to a width. -/
def padTo (width : Nat) (s : String) : String :=
  s ++ String.ofList (List.replicate (width - s.length) ' ')

section

variable (colours : Bool)

/-- The title of a report. -/
def titleLine (text : String) : String :=
  Colour.magenta.sequence colours ++ text ++ noColour ++ "\n"

/-- A labelled list of tasks; an empty one is shown as a dash. -/
def taskLine (label : String) (colour : Colour) (tasks : List String) :
    String :=
  let list := if tasks.isEmpty then "-" else ", ".intercalate tasks
  Colour.cyan.sequence colours ++ "  " ++ padTo 15 label ++
    colour.sequence colours ++ list ++ noColour ++ "\n"

/-- One region of a report. -/
def RegionEntry.line (r : RegionEntry) : String :=
  Colour.cyan.sequence colours ++ "  region " ++ padTo 4 (toString r.index) ++
    noColour ++ ", ".intercalate r.tasks ++
    Colour.darkGrey.sequence colours ++
    s!"  ({r.blockingInputs} blocking inputs)\n" ++ noColour

/-- The title and a line for every region. -/
def RegionsReport.render (r : RegionsReport) : String :=
  titleLine colours
      s!"{r.job}: {r.tasks} tasks in {r.regions.length} regions" ++
    String.join (r.regions.map (RegionEntry.line colours))

/-- The title and a line for every part of the plan. -/
def PlanReport.render (r : PlanReport) : String :=
  titleLine colours s!"{r.job}: checkpoint plan ({r.scope})" ++
    taskLine colours "trigger" .green r.trigger ++
    taskLine colours "wait for" .plain r.waitFor ++
    taskLine colours "commit to" .plain r.commitTo ++
    taskLine colours "finished" .darkGrey r.finished ++
    taskLine colours "fully finished" .darkGrey r.fullyFinished

/-- The title and the tasks to restart. -/
def FailoverReport.render (r : FailoverReport) : String :=
  titleLine colours s!"{r.job}: {r.failed} failed ({r.cause})" ++
    taskLine colours "restart" .yellow r.restart

/-- The text of a report. -/
def Report.render : Report → String
  | regions report => report.render colours
  | plan report => report.render colours
  | failover report => report.render colours

end

end ControlPlane.Inspection
