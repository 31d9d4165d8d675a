import Reckoner.Json.Literal

/-!
# Marks of a JSON text

A JSON text is a sequence of brackets, separators and scalar values. `Mark.next` reads one of them;
a text that holds none at this place gives `bad`, and nothing behind it is read.
-/

namespace Reckoner.Json

inductive Mark where
  | null
  | bool (b : Bool)
  | number (l : Literal)
  | text (s : String)
  /-- A string with half of a surrogate pair. -/
  | unpaired
  | openList
  | closeList
  | openObject
  | closeObject
  | comma
  | colon
  | bad

/-- What a string holds: a character, or the number of an escape. -/
inductive CodeUnit where
  | char (c : Char)
  | escape (n : Nat)
  deriving DecidableEq, Repr

namespace CodeUnit

def isLead (n : Nat) : Bool :=
  0xD800 ≤ n && n < 0xDC00

def isTrail (n : Nat) : Bool :=
  0xDC00 ≤ n && n < 0xE000

/-- The characters, unless an escape is half of a surrogate pair without the other half. -/
def decode : List CodeUnit → Option (List Char)
  | [] => some []
  | char c :: rest => (decode rest).map (c :: ·)
  | [escape n] => if isLead n || isTrail n then none else some [Char.ofNat n]
  | escape n :: escape k :: rest =>
    if isLead n && isTrail k then
      (decode rest).map (Char.ofNat (0x10000 + (n - 0xD800) * 0x400 + (k - 0xDC00)) :: ·)
    else if isLead n || isTrail n then none
    else (decode (escape k :: rest)).map (Char.ofNat n :: ·)
  | escape n :: char c :: rest =>
    if isLead n || isTrail n then none else (decode (char c :: rest)).map (Char.ofNat n :: ·)

end CodeUnit

namespace Mark

def isSpace (c : Char) : Bool :=
  c = ' ' || c = '\t' || c = '\n' || c = '\r'

def hexValue? (c : Char) : Option Nat :=
  if c.isDigit then some (c.toNat - '0'.toNat)
  else if 'a' ≤ c && c ≤ 'f' then some (c.toNat - 'a'.toNat + 10)
  else if 'A' ≤ c && c ≤ 'F' then some (c.toNat - 'A'.toNat + 10)
  else none

def hex4? (a b c d : Char) : Option Nat := do
  let a ← hexValue? a
  let b ← hexValue? b
  let c ← hexValue? c
  let d ← hexValue? d
  return ((a * 16 + b) * 16 + c) * 16 + d

def shortEscape? : Char → Option Char
  | '"' => some '"'
  | '\\' => some '\\'
  | '/' => some '/'
  | 'b' => some '\x08'
  | 'f' => some '\x0c'
  | 'n' => some '\n'
  | 'r' => some '\r'
  | 't' => some '\t'
  | _ => none

/-- The inside of a string up to its closing quote, and the text behind that. -/
def stringUnits : List Char → Option (List CodeUnit × List Char)
  | [] => none
  | '"' :: rest => some ([], rest)
  | '\\' :: 'u' :: a :: b :: c :: d :: rest =>
    match hex4? a b c d with
    | none => none
    | some n => (stringUnits rest).map fun (units, rest) => (.escape n :: units, rest)
  | '\\' :: e :: rest =>
    match shortEscape? e with
    | none => none
    | some c => (stringUnits rest).map fun (units, rest) => (.char c :: units, rest)
  | c :: rest =>
    if c.toNat < 0x20 || c = '\\' then none
    else (stringUnits rest).map fun (units, rest) => (.char c :: units, rest)

def readString (cs : List Char) : Mark × List Char :=
  match stringUnits cs with
  | none => (bad, [])
  | some (units, rest) =>
    match CodeUnit.decode units with
    | none => (unpaired, rest)
    | some s => (text (String.ofList s), rest)

/-- An optional fraction: a point with at least one digit behind it. -/
def readFraction : List Char → Option (Option (List Char) × List Char)
  | '.' :: cs =>
    let digits := cs.takeWhile Char.isDigit
    if digits.isEmpty then none else some (some digits, cs.drop digits.length)
  | cs => some (none, cs)

/-- An optional exponent: a letter, a sign if there is one, and at least one digit. -/
def readExponent (cs : List Char) : Option (Option (Bool × List Char) × List Char) :=
  let finish (negative : Bool) (cs : List Char) :=
    let digits := cs.takeWhile Char.isDigit
    if digits.isEmpty then none else some (some (negative, digits), cs.drop digits.length)
  match cs with
  | 'e' :: '+' :: cs | 'E' :: '+' :: cs => finish false cs
  | 'e' :: '-' :: cs | 'E' :: '-' :: cs => finish true cs
  | 'e' :: cs | 'E' :: cs => finish false cs
  | cs => some (none, cs)

/-- A number behind its minus sign; no other digit follows a leading zero. -/
def readNumber (negative : Bool) (cs : List Char) : Mark × List Char :=
  let whole := cs.takeWhile Char.isDigit
  let wellFormed := match whole with
    | [] => false
    | '0' :: _ :: _ => false
    | _ => true
  let literal? : Option (Literal × List Char) :=
    if wellFormed then do
      let (fraction, cs) ← readFraction (cs.drop whole.length)
      let (exponent, cs) ← readExponent cs
      return (⟨negative, whole, fraction, exponent⟩, cs)
    else none
  match literal? with
  | none => (bad, [])
  | some (l, rest) => (number l, rest)

def word (expected : List Char) (m : Mark) (cs : List Char) : Mark × List Char :=
  if expected.isPrefixOf cs then (m, cs.drop expected.length) else (bad, [])

/-- The mark that begins with a character, and the text behind it. -/
def read (c : Char) (cs : List Char) : Mark × List Char :=
  match c with
  | '[' => (openList, cs)
  | ']' => (closeList, cs)
  | '{' => (openObject, cs)
  | '}' => (closeObject, cs)
  | ',' => (comma, cs)
  | ':' => (colon, cs)
  | '"' => readString cs
  | 'n' => word ['u', 'l', 'l'] null cs
  | 't' => word ['r', 'u', 'e'] (bool true) cs
  | 'f' => word ['a', 'l', 's', 'e'] (bool false) cs
  | '-' => readNumber true cs
  | c => if c.isDigit then readNumber false (c :: cs) else (bad, [])

/-- The marks of a text; every mark takes a character, so no text has more of them. -/
def readAll : Nat → List Char → List Mark
  | 0, _ => []
  | n + 1, cs =>
    match cs.dropWhile isSpace with
    | [] => []
    | c :: cs =>
      let (m, rest) := read c cs
      m :: readAll n rest

def ofText (cs : List Char) : List Mark :=
  readAll cs.length cs

end Mark

end Reckoner.Json
