/-!
# TOML values

What a TOML document holds: tables of named values. A date or a time is one kind of value,
whatever moment it names.
-/

namespace Reckoner

inductive Toml where
  | text (s : String)
  | whole (n : Int)
  | real (x : Float)
  | bool (b : Bool)
  | time
  | list (items : List Toml)
  | table (entries : List (String × Toml))
  deriving Inhabited

namespace Toml

/-- A reader takes a value off the front of a text. -/
abbrev Scan (α : Type) :=
  List Char → Option (α × List Char)

/-- A character of a comment or a string: a tab, or anything but a control character. -/
def isTextChar (c : Char) : Bool :=
  c = '\t' || (0x20 ≤ c.toNat && c.toNat ≠ 0x7F)

/-- Blanks within a line. -/
def isSpace (c : Char) : Bool :=
  c = ' ' || c = '\t'

def skipSpaces (cs : List Char) : List Char :=
  cs.dropWhile isSpace

/-- Every line ends with a line feed alone. -/
def plainLines : List Char → List Char
  | [] => []
  | '\r' :: '\n' :: cs => '\n' :: plainLines cs
  | c :: cs => c :: plainLines cs

/-- The text behind a comment, which reaches to the end of its line. -/
def skipComment (cs : List Char) : Option (List Char) :=
  match cs.dropWhile isTextChar with
  | [] => some []
  | '\n' :: rest => some ('\n' :: rest)
  | _ => none

end Toml

end Reckoner
