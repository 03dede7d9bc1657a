/-! # TOML: blanks, comments and line ends -/
namespace ControlPlane.Toml

/-- Reads something from the front of a text, and returns what is left. -/
abbrev Scan (α : Type) := List Char → Option (α × List Char)

/-- A blank within a line. -/
def isBlank (c : Char) : Bool := c = ' ' || c = '\t'

/-- A printable character, a tab, or anything outside of ASCII. -/
def isPlain (c : Char) : Bool :=
  c = '\t' || (' ' ≤ c && c ≤ '~') || '\x80' ≤ c

/-- Skips blanks within a line. -/
def skipBlanks (cs : List Char) : List Char := cs.dropWhile isBlank

/-- What follows a line end, if the text starts with one. A carriage return
counts only in front of a line feed. -/
def newline? : List Char → Option (List Char)
  | '\n' :: cs => some cs
  | '\r' :: '\n' :: cs => some cs
  | _ => none

/-- Skips the comment the text starts with, if any. -/
def skipComment : List Char → List Char
  | '#' :: cs => cs.dropWhile isPlain
  | cs => cs

/-- What follows the rest of a line in which only blanks and a comment are
left. The last line may lack its line end. -/
def lineEnd? (cs : List Char) : Option (List Char) :=
  match skipComment (skipBlanks cs) with
  | [] => some []
  | cs => newline? cs

/-- Skips blanks, line ends and comments; a comment has to end with its line
or with the text. The flag says whether the text starts inside a comment. -/
def skipSpace? : Bool → List Char → Option (List Char)
  | _, '\n' :: cs => skipSpace? false cs
  | _, '\r' :: '\n' :: cs => skipSpace? false cs
  | false, '#' :: cs => skipSpace? true cs
  | false, c :: cs => if isBlank c then skipSpace? false cs else some (c :: cs)
  | true, c :: cs => if isPlain c then skipSpace? true cs else none
  | _, [] => some []

end ControlPlane.Toml
