import ControlPlane.Inspection.CommandLine

/-! # The program -/
namespace ControlPlane.Inspection

/-- The values of the variables with the given names. -/
def readVariables (names : List String) : IO (List (String × String)) :=
  names.filterMapM fun name => return (← IO.getEnv name).map (name, ·)

/-- The code of an operating system error. Some calls return it negated. -/
def errorCode (code : UInt32) : Nat :=
  let n := code.toNat
  if n < 1 <<< 31 then n else 1 <<< 32 - n

/-- Why a file cannot be read, with the code of the operating system. -/
def causeOf : IO.Error → String
  | .noFileOrDirectory _ code _ =>
    s!"No such file or directory (os error {errorCode code})"
  | .permissionDenied _ code _ =>
    s!"Permission denied (os error {errorCode code})"
  | .inappropriateType _ code _ =>
    s!"Is a directory (os error {errorCode code})"
  | e => toString e

/-- The content of a file, or why it cannot be read. -/
def readContent (path : String) : IO (Except String String) := do
  match ← (IO.FS.readBinFile path).toBaseIO with
  | .error e => return .error (causeOf e)
  | .ok bytes => return match String.fromUTF8? bytes with
    | some text => .ok text
    | none => .error "stream did not contain valid UTF-8"

/-- The environment and the job file that a command line needs. -/
def readSurroundings (arguments : List String) : IO Surroundings := do
  let profile := (← IO.getEnv Config.profileKey).getD ""
  let environment ← readVariables <|
    plainKey :: JobDefinition.parallelismKey :: Config.keys profile
  let content ← match Invocation.ofArguments? arguments with
    | some (.run _ command) => readContent command.path
    | _ => pure (.error "")
  let seed ← IO.rand 0 (1 <<< 60)
  return {
    lookup := fun key => environment.lookup key
    content := fun _ => content
    supply := .sequential seed }

end ControlPlane.Inspection

/-- Runs the program on its command line. -/
def main (arguments : List String) : IO UInt32 := do
  let surroundings ← ControlPlane.Inspection.readSurroundings arguments
  let response := ControlPlane.Inspection.respond surroundings arguments
  IO.print response.out
  IO.eprint response.err
  return response.exitCode.toUInt32
