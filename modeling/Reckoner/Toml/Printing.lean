import Reckoner.Json.Basic
import Reckoner.Toml.Quoted

/-!
# Writing TOML documents

Sections of plain entries, each under its header. A text is written between double quotes if it
needs no escape there, else between single quotes if it fits on a line, else over several lines,
and with escapes only if nothing else holds it.
-/

namespace Reckoner.Toml

def longestRun (c : Char) (cs : List Char) : Nat :=
  let (longest, last) := cs.foldl (fun (longest, run) d =>
    if d = c then (longest, run + 1) else (max longest run, 0)) (0, 0)
  max longest last

/-- A control character that only an escape can stand for. -/
def needsEscape (c : Char) : Bool :=
  !isTextChar c && c ≠ '\n'

def quotesFor (cs : List Char) : Quotes :=
  let raw := !cs.any needsEscape
  let oneLine := !cs.contains '\n'
  let noBackslash := !cs.contains '\\'
  if raw && noBackslash && oneLine && longestRun '"' cs = 0 then ⟨'"', false⟩
  else if raw && oneLine && longestRun '\'' cs = 0 then ⟨'\'', false⟩
  else if raw && noBackslash && longestRun '"' cs ≤ 2 then ⟨'"', true⟩
  else if raw && longestRun '\'' cs ≤ 2 then ⟨'\'', true⟩
  else ⟨'"', !oneLine⟩

def upperHex (n : Nat) : Char :=
  (Nat.digitChar n).toUpper

/-- A character between double quotes; a line feed stays in a long text. -/
def escaped (long : Bool) (c : Char) : List Char :=
  if c = '\x08' then ['\\', 'b']
  else if c = '\t' then ['\\', 't']
  else if c = '\n' then (if long then ['\n'] else ['\\', 'n'])
  else if c = '\x0c' then ['\\', 'f']
  else if c = '\r' then ['\\', 'r']
  else if c = '\\' then ['\\', '\\']
  else if needsEscape c then
    ['\\', 'u', '0', '0', upperHex (c.toNat / 16), upperHex (c.toNat % 16)]
  else [c]

/-- A text between double quotes; of a run of quotes in a long one two stay as they are. -/
def escapedBody (long : Bool) (run : Nat) : List Char → List Char
  | [] => []
  | '"' :: cs =>
    if long && run < 2 then '"' :: escapedBody long (run + 1) cs
    else '\\' :: '"' :: escapedBody long 0 cs
  | c :: cs => escaped long c ++ escapedBody long 0 cs

def textChars (s : String) : List Char :=
  let cs := s.toList
  let q := quotesFor cs
  let quotes := List.replicate (if q.long then 3 else 1) q.mark
  let start := if q.long && cs.contains '\n' then ['\n'] else []
  let body := if q.escapes then escapedBody q.long 0 cs else cs
  quotes ++ start ++ body ++ quotes

/-! ### Documents -/

inductive Plain where
  | text (s : String)
  | whole (n : Int)
  deriving DecidableEq, Repr

namespace Plain

def toToml : Plain → Toml
  | text s => .text s
  | whole n => .whole n

/-- The written value, if a signed word holds it. -/
def chars? : Plain → Option (List Char)
  | text s => some (textChars s)
  | whole n =>
    if Int64.minValue.toInt ≤ n ∧ n ≤ Int64.maxValue.toInt then some (toString n).toList
    else none

end Plain

structure Section where
  name : String
  entries : List (String × Plain)
  deriving DecidableEq, Repr

namespace Section

def toToml (s : Section) : Toml :=
  .table (s.entries.map fun (key, v) => (key, v.toToml))

def chars? (s : Section) : Option (List Char) := do
  let lines ← s.entries.mapM fun (key, v) => do
    return key.toList ++ [' ', '=', ' '] ++ (← v.chars?) ++ ['\n']
  return '[' :: s.name.toList ++ [']', '\n'] ++ lines.flatten

end Section

def ofSections (ss : List Section) : Toml :=
  .table (ss.map fun s => (s.name, s.toToml))

/-- The document of sections, an empty line between two of them, if every number can be written. -/
def write? (ss : List Section) : Option String := do
  let parts ← ss.mapM Section.chars?
  return String.ofList (['\n'].intercalate parts)

end Reckoner.Toml
