import ControlPlane.Text.CaseTable

/-! # Upper case

The full upper case form of a text, in which a character may become
several. -/
namespace ControlPlane.Text

/-- The upper case form of a character. -/
def upperChar (c : Char) : List Char :=
  match caseExpansions.lookup c.toNat with
  | some codes => codes.map Char.ofNat
  | none =>
    match caseRuns.find? (·.covers c.toNat) with
    | some run => [Char.ofNat (run.upper c.toNat)]
    | none => [c]

/-- The upper case form of a text. -/
def upperCase (s : String) : String :=
  String.ofList (s.toList.flatMap upperChar)

end ControlPlane.Text
