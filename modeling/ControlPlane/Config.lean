import ControlPlane.Error
import ControlPlane.Text.Numeral
import ControlPlane.Text.UpperCase

/-! # Configuration

Settings are read from texts under fixed keys. With a profile, every key is
looked up behind the name of the profile first and plainly second. An empty
text counts as missing. -/
namespace ControlPlane

/-- A source of settings. -/
abbrev Lookup := String → Option String

/-! ## Strategies -/

/-- Which tasks restart after a failure. -/
inductive FailoverKind where
  /-- The region that failed, and those it drags in. -/
  | region
  /-- Every task. -/
  | full
deriving DecidableEq, Inhabited, Repr

/-- When consumed data may be released. -/
inductive ReleaseKind where
  /-- Once every region that reads it has finished. -/
  | region
  /-- Not before the job ends. -/
  | never
deriving DecidableEq, Inhabited, Repr

namespace FailoverKind

/-- The written name of a failover strategy. -/
def name : FailoverKind → String
  | region => "region"
  | full => "full"

/-- The failover strategy with a written name. -/
def ofName? (s : String) : Option FailoverKind :=
  [region, full].find? (·.name = s)

/-- Reads a strategy's name in any case. -/
def parse (s : String) : Except Error FailoverKind :=
  match ofName? s.toLower with
  | some kind => .ok kind
  | none => .error (.config (.unknownFailover s.toLower))

@[simp] theorem ofName?_name (k : FailoverKind) :
    ofName? k.name = some k := by
  cases k <;> decide

end FailoverKind

namespace ReleaseKind

/-- The written name of a release strategy. -/
def name : ReleaseKind → String
  | region => "region"
  | never => "never"

/-- The release strategy with a written name. -/
def ofName? (s : String) : Option ReleaseKind :=
  [region, never].find? (·.name = s)

/-- Reads a strategy's name in any case. -/
def parse (s : String) : Except Error ReleaseKind :=
  match ofName? s.toLower with
  | some kind => .ok kind
  | none => .error (.config (.unknownRelease s.toLower))

@[simp] theorem ofName?_name (k : ReleaseKind) :
    ofName? k.name = some k := by
  cases k <;> decide

end ReleaseKind

/-! ## Settings -/

/-- The settings of a control plane. -/
structure Config where
  /-- The profile in upper case; empty for none. -/
  profile : String := ""
  /-- Whether checkpoints go on once some tasks have finished. -/
  checkpointAfterFinish : Bool := true
  failover : FailoverKind := .region
  release : ReleaseKind := .region
  /-- The bound of the control queue, at least one. -/
  queueCapacity : Nat := 1024
  logFilter : String := "info"
deriving DecidableEq, Inhabited, Repr

namespace Config

/-- The name of the profile for people. -/
def label (c : Config) : String :=
  if c.profile.isEmpty then "default" else c.profile

/-! ## Keys -/

/-- Whether checkpoints go on once some tasks have finished. -/
def checkpointKey : String := "SLUICE_CHECKPOINT_AFTER_TASKS_FINISHED"

/-- The failover strategy. -/
def failoverKey : String := "SLUICE_FAILOVER_STRATEGY"

/-- The release strategy. -/
def releaseKey : String := "SLUICE_PARTITION_RELEASE"

/-- The bound of the control queue. -/
def capacityKey : String := "SLUICE_EXECUTOR_QUEUE_CAPACITY"

/-- The log filter. -/
def logKey : String := "SLUICE_LOG"

/-- The profile in use. -/
def profileKey : String := "SLUICE_PROFILE"

/-- A key as the settings of a profile have it. -/
def profiled (profile key : String) : String := s!"{profile}_{key}"

/-- All keys that the settings of a profile are read from. -/
def keys (profile : String) : List String :=
  let plain := [checkpointKey, failoverKey, releaseKey, capacityKey, logKey]
  profileKey :: plain ++ plain.map (profiled (Text.upperCase profile))

/-! ## Reading -/

/-- The text under a key, unless it is empty. -/
def nonempty (lookup : Lookup) (key : String) : Option String :=
  (lookup key).filter (!·.isEmpty)

/-- The setting for a key, from the profile if it has one. -/
def setting (profile : String) (lookup : Lookup) (key : String) :
    Option String :=
  let plain := nonempty lookup key
  if profile.isEmpty then plain
  else (nonempty lookup (profiled profile key)).or plain

/-- Reads a switch. -/
def readSwitch (key raw : String) : Except Error Bool :=
  if raw ∈ ["1", "true", "yes", "on"] then .ok true
  else if raw ∈ ["0", "false", "no", "off"] then .ok false
  else .error (.config (.invalidBoolean raw key))

/-- Reads the bound of a queue. -/
def readCapacity (key raw : String) : Except Error Nat :=
  match Text.numeral64 raw with
  | .error _ => .error (.config (.invalidValue raw key))
  | .ok 0 => .error (.config (.zero key))
  | .ok n => .ok n

/-- A setting read by `read`, or its default when it is missing. -/
def readOr {α : Type} (find : Lookup) (key : String) (default : α)
    (read : String → Except Error α) : Except Error α :=
  match find key with
  | none => .ok default
  | some raw => read raw

/-- Reads the settings of a profile. -/
def load (profile : String) (lookup : Lookup) : Except Error Config := do
  let profile := Text.upperCase profile
  let find := setting profile lookup
  let checkpointAfterFinish ←
    readOr find checkpointKey true (readSwitch checkpointKey)
  let failover ←
    readOr find failoverKey .region FailoverKind.parse
  let release ←
    readOr find releaseKey .region ReleaseKind.parse
  let queueCapacity ← readOr find capacityKey 1024 (readCapacity capacityKey)
  let logFilter := (find logKey).getD "info"
  return { profile, checkpointAfterFinish, failover, release, queueCapacity,
           logFilter }

/-- Reads the settings of the profile that the source itself names. -/
def loadActive (lookup : Lookup) : Except Error Config :=
  load ((lookup profileKey).getD "") lookup

end Config

end ControlPlane
