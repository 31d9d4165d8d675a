import Reckoner.Json.Mark
import Reckoner.Toml.Basic

/-!
# Quoted texts in TOML

A text stands between single quotes as it is, between double quotes with escapes, and between
three quotes of either kind over several lines.
-/

namespace Reckoner.Toml

/-- The character that so many hexadecimal digits name. -/
def readCode (width : Nat) (cs : List Char) : Option (Char × List Char) := do
  let digits ← (cs.take width).mapM Json.Mark.hexValue?
  let code := digits.foldl (fun n d => 16 * n + d) 0
  if digits.length = width && code.isValidChar then some (Char.ofNat code, cs.drop width) else none

/-- The character of an escape, behind its backslash. -/
def readEscape : Scan Char
  | 'b' :: cs => some ('\x08', cs)
  | 't' :: cs => some ('\t', cs)
  | 'n' :: cs => some ('\n', cs)
  | 'f' :: cs => some ('\x0c', cs)
  | 'r' :: cs => some ('\r', cs)
  | '"' :: cs => some ('"', cs)
  | '\\' :: cs => some ('\\', cs)
  | 'u' :: cs => readCode 4 cs
  | 'U' :: cs => readCode 8 cs
  | _ => none

/-- The quotes around a text: one or three of a kind. -/
structure Quotes where
  mark : Char
  long : Bool

namespace Quotes

def escapes (q : Quotes) : Bool :=
  q.mark = '"'

/-- Whether the line ends here, so that a backslash before it joins it to the next text. -/
def endsLine (cs : List Char) : Bool :=
  (skipSpaces cs).head? = some '\n'

def joinLines (cs : List Char) : List Char :=
  cs.dropWhile fun c => isSpace c || c = '\n'

/-- The text up to the closing quotes. Of a run of quotes the last three close a long text; no more
than two can stand before them. -/
def readBody (q : Quotes) : Nat → Scan (List Char)
  | 0, _ => none
  | n + 1, cs =>
    let run := (cs.takeWhile (· = q.mark)).length
    let keep (c : Char) (rest : List Char) :=
      (readBody q n rest).map fun (body, rest) => (c :: body, rest)
    if q.long && 3 ≤ run then
      if run ≤ 5 then some (List.replicate (run - 3) q.mark, cs.drop run) else none
    else match cs with
      | [] => none
      | c :: rest =>
        if c = q.mark && !q.long then some ([], rest)
        else if c = '\\' && q.escapes then
          if q.long && endsLine rest then readBody q n (joinLines rest)
          else match readEscape rest with
            | some (c, rest) => keep c rest
            | none => none
        else if isTextChar c || (q.long && c = '\n') then keep c rest
        else none

end Quotes

def readShort (mark : Char) : Scan String := fun cs =>
  (Quotes.readBody ⟨mark, false⟩ (cs.length + 1) cs).map fun (body, rest) =>
    (String.ofList body, rest)

/-- The text behind three quotes; a line feed at its beginning does not count. -/
def readLong (mark : Char) : Scan String := fun cs =>
  let cs := match cs with
    | '\n' :: cs => cs
    | cs => cs
  (Quotes.readBody ⟨mark, true⟩ (cs.length + 1) cs).map fun (body, rest) =>
    (String.ofList body, rest)

/-- A text of either length, behind its first quote. -/
def readText (mark : Char) : Scan String
  | a :: b :: cs =>
    if a = mark ∧ b = mark then readLong mark cs else readShort mark (a :: b :: cs)
  | cs => readShort mark cs

end Reckoner.Toml
