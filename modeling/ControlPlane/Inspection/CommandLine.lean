import ControlPlane.Inspection.Command

/-! # Command line

A command line names a command and, before or behind its name, options. The
arguments are looked at one by one, so a request for help or for the version
counts only if everything in front of it is in order. -/
namespace ControlPlane.Inspection

/-- What a command line asks for. -/
inductive Invocation where
  /-- To run a command, and to print the report as JSON or not. -/
  | run (asJson : Bool) (command : Command)
  | version
  | help
deriving DecidableEq, Repr

/-- The commands. -/
inductive Verb where
  | regions
  | plan
  | failover
deriving DecidableEq, Repr

namespace Verb

/-- The written name of a command. -/
def name : Verb → String
  | regions => "regions"
  | plan => "plan"
  | failover => "failover"

/-- The command with a written name. -/
def ofName? (s : String) : Option Verb :=
  [regions, plan, failover].find? (·.name = s)

/-- The options of a command that take a value. -/
def options : Verb → List String
  | regions => []
  | plan => ["scope-group"]
  | failover => ["vertex", "lost-partition"]

end Verb

/-- The arguments of a command read so far. -/
structure Arguments where
  asJson : Bool := false
  /-- The job file. -/
  path : Option String := none
  /-- The values of the options given. -/
  values : List (String × String) := []
deriving DecidableEq, Repr

namespace Arguments

/-- Sets the job file, of which there is only one; its path is not
empty. -/
def setPath (a : Arguments) (path : String) : Option Arguments :=
  if a.path.isSome || path.isEmpty then none
  else some { a with path := some path }

/-- Sets an option, which may be given only once. -/
def setValue (a : Arguments) (name value : String) : Option Arguments :=
  if (a.values.lookup name).isSome then none
  else some { a with values := (name, value) :: a.values }

/-- Asks for JSON, which can be asked for only once. -/
def setJson (a : Arguments) : Option Arguments :=
  if a.asJson then none else some { a with asJson := true }

/-- The command of which all arguments were read, if none is missing. -/
def command? (a : Arguments) : Verb → Option Command
  | .regions => a.path.map .regions
  | .plan => a.path.map (.plan · (a.values.lookup "scope-group"))
  | .failover => do
    return .failover (← a.path) (← a.values.lookup "vertex")
      (a.values.lookup "lost-partition")

end Arguments

/-! ## Kinds of arguments -/

/-- An argument by its dashes. -/
inductive Token where
  /-- Two dashes alone: everything behind is plain. -/
  | separator
  /-- A long option, maybe with a value behind an equals sign. -/
  | long (name : String) (value : Option String)
  /-- One-letter options in a row. -/
  | short (letters : List Char)
  /-- Anything else; a dash alone is plain too. -/
  | plain (text : String)
deriving DecidableEq, Repr

/-- The kind of an argument. -/
def Token.ofArgument (argument : String) : Token :=
  match argument.toList with
  | ['-', '-'] => .separator
  | '-' :: '-' :: cs =>
    let (name, rest) := cs.span (· ≠ '=')
    .long (String.ofList name) (match rest with
      | [] => none
      | _ :: value => some (String.ofList value))
  | '-' :: c :: cs => .short (c :: cs)
  | _ => .plain argument

/-! ## Arguments of a command -/

/-- Reads the arguments behind the separator. -/
def readPlain : Arguments → List String → Option Arguments
  | a, [] => some a
  | a, argument :: rest => do readPlain (← a.setPath argument) rest

/-- Reads the arguments of a command. Help ends the reading. -/
def readArguments (verb : Verb) :
    Arguments → List String → Option (Arguments ⊕ Invocation)
  | a, [] => some (.inl a)
  | a, argument :: rest =>
    match Token.ofArgument argument with
    | .separator => (readPlain a rest).map .inl
    | .plain path => do readArguments verb (← a.setPath path) rest
    | .short ('h' :: _) => some (.inr .help)
    | .short _ => none
    | .long "json" none => do readArguments verb (← a.setJson) rest
    | .long "help" none => some (.inr .help)
    | .long name value =>
      if name ∉ verb.options then none
      else match value, rest with
        | some value, rest => do
          readArguments verb (← a.setValue name value) rest
        | none, next :: rest =>
          match Token.ofArgument next with
          | .plain value => do
            readArguments verb (← a.setValue name value) rest
          | _ => none
        | none, [] => none

/-- Reads a command line behind the name of a command. -/
def readCommand (asJson : Bool) (verb : Verb) (arguments : List String) :
    Option Invocation := do
  match ← readArguments verb {} arguments with
  | .inl a => return .run (asJson || a.asJson) (← a.command? verb)
  | .inr invocation => return invocation

/-! ## The whole line -/

/-- Whether arguments name something there is help on. -/
def isHelpTopic : List String → Bool
  | [] => true
  | [name] => name = "help" || (Verb.ofName? name).isSome
  | _ => false

/-- Reads a command line; the flag says whether JSON was asked for
already. -/
def readLine : Bool → List String → Option Invocation
  | _, [] => none
  | asJson, argument :: rest =>
    match Token.ofArgument argument with
    | .separator => none
    | .plain "help" => if isHelpTopic rest then some .help else none
    | .plain name => do readCommand asJson (← Verb.ofName? name) rest
    | .short ('h' :: _) => some .help
    | .short ('V' :: _) => some .version
    | .short _ => none
    | .long "json" none => if asJson then none else readLine true rest
    | .long "help" none => some .help
    | .long "version" none => some .version
    | .long _ _ => none

/-- What a command line asks for, if it is in order. -/
def Invocation.ofArguments? (arguments : List String) : Option Invocation :=
  readLine false arguments

/-! ## Responses -/

/-- What the program writes, and the code it exits with. -/
structure Response where
  exitCode : Nat := 0
  out : String := ""
  err : String := ""
deriving DecidableEq, Repr

/-- The name of the program with its version. -/
def versionText : String := "sluice 0.1.0\n"

/-- How the program is used. -/
def usageText : String :=
  "Scheduling control plane inspector\n\n" ++
  "Usage: sluice [--json] <COMMAND>\n\n" ++
  "Commands:\n" ++
  "  regions <JOB>\n" ++
  "  plan <JOB> [--scope-group <GROUP>]\n" ++
  "  failover <JOB> --vertex <NAME:INDEX> [--lost-partition " ++
  "<PRODUCER:SUBTASK[:OUTPUT]>]\n" ++
  "  help [COMMAND]\n\n" ++
  "Options:\n" ++
  "      --json     Print machine-readable JSON instead of the text report\n" ++
  "  -h, --help     Print help\n" ++
  "  -V, --version  Print version\n"

namespace Response

/-- The response to a failure. -/
def ofFailure (f : Failure) : Response :=
  { exitCode := 1, err := s!"Error: {f.report}\n" }

/-- The response to a report. -/
def ofReport (colours asJson : Bool) (report : Report) : Response :=
  { out := if asJson then report.toDocument.toJson ++ "\n"
      else report.render colours }

end Response

/-- The variable that turns colours off, unless it is empty. -/
def plainKey : String := "NO_COLOR"

/-- Whether reports have colours. -/
def hasColours (lookup : Lookup) : Bool :=
  (Config.nonempty lookup plainKey).isNone

/-- Runs the program. The configuration is read before the command line. -/
def respond (s : Surroundings) (arguments : List String) : Response :=
  match Config.loadActive s.lookup with
  | .error e => .ofFailure
      { message := "failed to load configuration", causes := e.chain }
  | .ok config =>
    match Invocation.ofArguments? arguments with
    | none => { exitCode := 2, err := usageText }
    | some .version => { out := versionText }
    | some .help => { out := usageText }
    | some (.run asJson command) =>
      match command.run s config with
      | .ok report => .ofReport (hasColours s.lookup) asJson report
      | .error e => .ofFailure e

end ControlPlane.Inspection
