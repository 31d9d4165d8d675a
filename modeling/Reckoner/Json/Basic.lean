import Reckoner.Decimal.Layout

/-!
# JSON values

Values with their members in order, and their two written forms: without any blank, and with one
item or member a line.
-/

namespace Reckoner

inductive Json where
  | null
  | bool (b : Bool)
  | whole (n : Int)
  | real (x : Float)
  | text (s : String)
  | list (items : List Json)
  | object (members : List (String × Json))
  deriving Inhabited

namespace Json

def ofOption (encode : α → Json) : Option α → Json
  | none => null
  | some a => encode a

def ofNat (n : Nat) : Json :=
  whole n

/-- Positional from a hundred-thousandth up to sixteen digits before the point, which is never left
out; ties to even. -/
def numberLayout : Decimal.Layout where
  positional := fun exponent => -5 ≤ exponent && exponent < 16
  pointZero := true
  tie := .toEven
  infinity := "null"
  nan := "null"

/-- Infinities and the value that is no number have no written form of their own. -/
def realChars (x : Float) : List Char :=
  if x.isFinite then numberLayout.text x else "null".toList

def hexDigit (n : Nat) : Char :=
  (Nat.digitChar n)

/-- A character inside quotes: quotes, backslashes and control characters are escaped. -/
def escape (c : Char) : List Char :=
  if c = '"' then ['\\', '"']
  else if c = '\\' then ['\\', '\\']
  else if c = '\n' then ['\\', 'n']
  else if c = '\r' then ['\\', 'r']
  else if c = '\t' then ['\\', 't']
  else if c = '\x08' then ['\\', 'b']
  else if c = '\x0c' then ['\\', 'f']
  else if c.toNat < 0x20 then
    ['\\', 'u', '0', '0', hexDigit (c.toNat / 16), hexDigit (c.toNat % 16)]
  else [c]

def quoted (s : String) : List Char :=
  '"' :: s.toList.flatMap escape ++ ['"']

/-- What stands before an item at a depth of nesting, and between a key and its value. -/
structure Spacing where
  line : Nat → List Char
  colon : List Char

def Spacing.compact : Spacing :=
  ⟨fun _ => [], [':']⟩

def Spacing.lines : Spacing :=
  ⟨fun depth => '\n' :: List.replicate (2 * depth) ' ', [':', ' ']⟩

/-- Parts between brackets, separated by commas, each on a line of its own if lines are used. -/
def block (s : Spacing) (depth : Nat) (opening closing : Char) : List (List Char) → List Char
  | [] => [opening, closing]
  | parts =>
    opening :: [','].intercalate (parts.map (s.line (depth + 1) ++ ·)) ++ s.line depth ++ [closing]

mutual

def chars (s : Spacing) (depth : Nat) : Json → List Char
  | null => "null".toList
  | bool true => "true".toList
  | bool false => "false".toList
  | whole n => (toString n).toList
  | real x => realChars x
  | text t => quoted t
  | list items => block s depth '[' ']' (itemChars s (depth + 1) items)
  | object members => block s depth '{' '}' (memberChars s (depth + 1) members)

def itemChars (s : Spacing) (depth : Nat) : List Json → List (List Char)
  | [] => []
  | v :: vs => chars s depth v :: itemChars s depth vs

def memberChars (s : Spacing) (depth : Nat) : List (String × Json) → List (List Char)
  | [] => []
  | (k, v) :: ms => (quoted k ++ s.colon ++ chars s depth v) :: memberChars s depth ms

end

def compact (v : Json) : String :=
  String.ofList (chars .compact 0 v)

/-- One item or member a line, indented by two blanks for every level. -/
def pretty (v : Json) : String :=
  String.ofList (chars .lines 0 v)

end Json

end Reckoner
