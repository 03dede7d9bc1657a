import ControlPlane.Toml.Lexical
import ControlPlane.Uuid

/-! # TOML: quoted texts

Texts in double quotes know escapes, texts in single quotes do not. Both
have a form in three quotes that runs over several lines; there a line
break right behind the opening quotes is dropped, and up to two quotes may
stand in front of the closing ones. -/
namespace ControlPlane.Toml

/-- Adds a character to the front of what was read. -/
def cons? (c : Char) : Option (List Char × List Char) →
    Option (List Char × List Char) :=
  Option.map fun (read, rest) => (c :: read, rest)

/-! ## Escapes -/

/-- Where an escape stands that is being read. -/
inductive Escape where
  /-- Outside of an escape. -/
  | none
  /-- Behind the backslash. -/
  | start
  /-- At the digits of a code point: how many are to come, and the number
  spelled so far. -/
  | code (digits value : Nat)
  /-- Behind a backslash and blanks, before the end of the line. -/
  | lineEnd
  /-- Behind a backslash at the end of a line, in the blanks to skip. -/
  | skipping
deriving DecidableEq, Repr

/-- The character that a letter behind the backslash stands for. -/
def escaped? : Char → Option Char
  | 'b' => some '\x08'
  | 't' => some '\t'
  | 'n' => some '\n'
  | 'f' => some '\x0c'
  | 'r' => some '\r'
  | '"' => some '"'
  | '\\' => some '\\'
  | _ => Option.none

/-- The number of digits behind a letter that announces a code point. -/
def codeLength? : Char → Option Nat
  | 'u' => some 4
  | 'U' => some 8
  | _ => Option.none

/-- The character with a code point. -/
def charOfCode? (code : Nat) : Option Char :=
  if code.isValidChar then some (Char.ofNat code) else Option.none

/-! ## Double quotes -/

/-- The rest of a text in double quotes. -/
def basicRest : Escape → Scan (List Char)
  | .none, '"' :: cs => some ([], cs)
  | .none, '\\' :: cs => basicRest .start cs
  | .none, c :: cs => if isPlain c then cons? c (basicRest .none cs) else none
  | .start, c :: cs =>
    match escaped? c, codeLength? c with
    | some e, _ => cons? e (basicRest .none cs)
    | _, some n => basicRest (.code n 0) cs
    | _, _ => none
  | .code (n + 1) value, c :: cs =>
    match Uuid.hexDigit? c with
    | Option.none => none
    | some d =>
      let value := 16 * value + d
      if n = 0 then
        match charOfCode? value with
        | some e => cons? e (basicRest .none cs)
        | Option.none => none
      else basicRest (.code n value) cs
  | _, _ => none

/-- The rest of a text in three double quotes. -/
def basicLinesRest : Escape → Scan (List Char)
  | .skipping, '\n' :: cs => basicLinesRest .skipping cs
  | .skipping, '\r' :: '\n' :: cs => basicLinesRest .skipping cs
  | .skipping, ' ' :: cs => basicLinesRest .skipping cs
  | .skipping, '\t' :: cs => basicLinesRest .skipping cs
  | .lineEnd, '\n' :: cs => basicLinesRest .skipping cs
  | .lineEnd, '\r' :: '\n' :: cs => basicLinesRest .skipping cs
  | .lineEnd, c :: cs =>
    if isBlank c then basicLinesRest .lineEnd cs else none
  | .start, '\n' :: cs => basicLinesRest .skipping cs
  | .start, '\r' :: '\n' :: cs => basicLinesRest .skipping cs
  | .start, c :: cs =>
    if isBlank c then basicLinesRest .lineEnd cs
    else match escaped? c, codeLength? c with
      | some e, _ => cons? e (basicLinesRest .none cs)
      | _, some n => basicLinesRest (.code n 0) cs
      | _, _ => none
  | .code (n + 1) value, c :: cs =>
    match Uuid.hexDigit? c with
    | Option.none => none
    | some d =>
      let value := 16 * value + d
      if n = 0 then
        match charOfCode? value with
        | some e => cons? e (basicLinesRest .none cs)
        | Option.none => none
      else basicLinesRest (.code n value) cs
  | .code 0 _, _ => none
  | _, '"' :: '"' :: '"' :: '"' :: '"' :: cs => some (['"', '"'], cs)
  | _, '"' :: '"' :: '"' :: '"' :: cs => some (['"'], cs)
  | _, '"' :: '"' :: '"' :: cs => some ([], cs)
  | _, '\\' :: cs => basicLinesRest .start cs
  | _, '\n' :: cs => cons? '\n' (basicLinesRest .none cs)
  | _, '\r' :: '\n' :: cs => cons? '\n' (basicLinesRest .none cs)
  | _, c :: cs =>
    if isPlain c then cons? c (basicLinesRest .none cs) else none
  | _, [] => none

/-! ## Single quotes -/

/-- The rest of a text in single quotes. -/
def literalRest : Scan (List Char)
  | '\'' :: cs => some ([], cs)
  | c :: cs => if isPlain c then cons? c (literalRest cs) else none
  | [] => none

/-- The rest of a text in three single quotes. -/
def literalLinesRest : Scan (List Char)
  | '\'' :: '\'' :: '\'' :: '\'' :: '\'' :: cs => some (['\'', '\''], cs)
  | '\'' :: '\'' :: '\'' :: '\'' :: cs => some (['\''], cs)
  | '\'' :: '\'' :: '\'' :: cs => some ([], cs)
  | '\n' :: cs => cons? '\n' (literalLinesRest cs)
  | '\r' :: '\n' :: cs => cons? '\n' (literalLinesRest cs)
  | c :: cs => if isPlain c then cons? c (literalLinesRest cs) else none
  | [] => none

/-! ## All forms -/

/-- A text within one line, as it may also serve as a key. -/
def quotedLine : Scan (List Char)
  | '"' :: cs => basicRest .none cs
  | '\'' :: cs => literalRest cs
  | _ => none

/-- A text in any form. -/
def quoted : Scan (List Char)
  | '"' :: '"' :: '"' :: cs => basicLinesRest .none ((newline? cs).getD cs)
  | '\'' :: '\'' :: '\'' :: cs => literalLinesRest ((newline? cs).getD cs)
  | cs => quotedLine cs

end ControlPlane.Toml
