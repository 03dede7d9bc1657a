import ControlPlane.Checkpoint.Failure
import ControlPlane.Job.Control
import ControlPlane.Text.Numeral

/-! # Failed inspections

A failed inspection says what was being done and why that failed, from the
outside in. -/
namespace ControlPlane

/-- An error with the causes behind it, outermost first. -/
def Error.chain (e : Error) : List String :=
  match e with
  | .file _ cause => [e.message, cause]
  | _ => [e.message]

/-- A control error with the causes behind it, outermost first. -/
def ControlError.chain : ControlError → List String
  | executor error => [error.message]
  | operation error => error.chain

namespace Inspection

/-- What was being done, and why it failed. -/
structure Failure where
  message : String
  /-- The causes, outermost first. -/
  causes : List String := []
deriving DecidableEq, Repr

namespace Failure

/-- The failure with all its causes in one line. -/
def summary (f : Failure) : String := ": ".intercalate (f.message :: f.causes)

/-- A text with every further line indented. -/
def hang (indent text : String) : String :=
  String.ofList (text.toList.flatMap fun c =>
    if c = '\n' then '\n' :: indent.toList else [c])

/-- One cause of several, with its number. -/
def numbered (number : Nat) (cause : String) : String :=
  let digits := toString number
  let blanks := String.ofList (List.replicate (5 - digits.length) ' ')
  s!"{blanks}{digits}: " ++ hang "       " cause

/-- The failure with its causes listed below it. Several are numbered. -/
def report (f : Failure) : String :=
  match f.causes with
  | [] => f.message
  | [cause] =>
    f.message ++ "\n\nCaused by:\n    " ++ hang "    " cause
  | causes =>
    let lines := causes.zipIdx.map fun (cause, number) =>
      "\n" ++ numbered number cause
    f.message ++ "\n\nCaused by:" ++ String.join lines

end Failure

/-- The result of an inspection. -/
abbrev Result (α : Type) := Except Failure α

/-- The failure of an inspection without a cause behind it. -/
def refuse {α : Type} (message : String) : Result α := .error { message }

/-- A result of an operation, with what was being done if it failed. -/
def within {α : Type} (message : String) (result : Except Error α) :
    Result α :=
  result.mapError fun e => { message, causes := e.chain }

/-- A number read from a text, with what was being read if it failed. -/
def withinNumeral (message : String)
    (result : Except Text.NumeralDefect Nat) : Result Nat :=
  result.mapError fun defect => { message, causes := [defect.message] }

end Inspection

end ControlPlane
