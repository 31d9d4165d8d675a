import Reckoner.Decimal.Whole
import Reckoner.Instant.Basic
import Reckoner.Text.Blank

/-!
# Written instants

Instants are written in the form of RFC 3339, in universal time, with the fewest fraction digits
out of none, three, six and nine. Reading is lenient: blanks may stand before numbers and
separators, leading zeros may be missing, a blank may replace the T, and any offset is taken into
account.
-/

namespace Reckoner.Instant

def padded (width n : Nat) : List Char :=
  let digits := Nat.toDigits 10 n
  List.replicate (width - digits.length) '0' ++ digits

/-- Four digits; beyond these a sign and at least four. -/
def yearText (year : Int) : List Char :=
  if 0 ≤ year ∧ year ≤ 9999 then padded 4 year.toNat
  else (if year < 0 then '-' else '+') :: padded 4 year.natAbs

def fractionText (nanos : Nat) : List Char :=
  if nanos = 0 then []
  else if nanos % Duration.perMilli = 0 then '.' :: padded 3 (nanos / Duration.perMilli)
  else if nanos % Duration.perMicro = 0 then '.' :: padded 6 (nanos / Duration.perMicro)
  else '.' :: padded 9 nanos

def chars (t : Instant) : List Char :=
  yearText t.year ++ '-' :: padded 2 t.month ++ '-' :: padded 2 t.day ++ 'T' :: padded 2 t.hour
    ++ ':' :: padded 2 t.minute ++ ':' :: padded 2 t.second ++ fractionText t.nanos ++ ['Z']

def text (t : Instant) : String :=
  String.ofList t.chars

/-! ### Reading -/

def skipBlanks (cs : List Char) : List Char :=
  cs.dropWhile Text.isBlank

/-- The digits at the front, at most `width` of them and at least one, as a number. -/
def readNumber (width : Nat) (cs : List Char) : Option (Nat × List Char) :=
  let digits := (cs.take width).takeWhile Char.isDigit
  if digits.isEmpty then none else some (Decimal.value digits, cs.drop digits.length)

def readPart (width : Nat) (cs : List Char) : Option (Nat × List Char) :=
  readNumber width (skipBlanks cs)

def readMark (mark : Char) (cs : List Char) : Option (List Char) :=
  match skipBlanks cs with
  | c :: rest => if c = mark then some rest else none
  | [] => none

/-- Up to four digits, or a sign and as many as there are. -/
def readYear (cs : List Char) : Option (Int × List Char) :=
  match skipBlanks cs with
  | '-' :: rest => (readNumber rest.length rest).map fun (n, rest) => (-n, rest)
  | '+' :: rest => (readNumber rest.length rest).map fun (n, rest) => (n, rest)
  | rest => (readNumber 4 rest).map fun (n, rest) => (n, rest)

/-- Nanoseconds; digits behind the ninth do not count. -/
def readFraction : List Char → Option (Nat × List Char)
  | '.' :: cs =>
    let digits := cs.takeWhile Char.isDigit
    if digits.isEmpty then none
    else
      let kept := digits.take 9
      some (Decimal.value kept * Nat.pow 10 (9 - kept.length), cs.drop digits.length)
  | cs => some (0, cs)

def twoDigits : List Char → Option (Nat × List Char)
  | a :: b :: rest =>
    if a.isDigit && b.isDigit then some (Decimal.value [a, b], rest) else none
  | _ => none

/-- Minutes ahead of universal time. -/
def readOffset (cs : List Char) : Option (Int × List Char) :=
  let numeric (sign : Int) (cs : List Char) : Option (Int × List Char) := do
    let (hours, cs) ← twoDigits cs
    let (minutes, cs) ← twoDigits (cs.dropWhile fun c => c = ':' || Text.isBlank c)
    if minutes < 60 && hours < 24 then some (sign * (hours * 60 + minutes : Nat), cs) else none
  match cs with
  | 'Z' :: rest | 'z' :: rest => some (0, rest)
  | '+' :: rest => numeric 1 rest
  | '-' :: rest | '−' :: rest => numeric (-1) rest
  | u :: t :: c :: rest =>
    if [u, t, c].map Char.toUpper = ['U', 'T', 'C'] then some (0, rest) else none
  | _ => none

def readDateEnd : List Char → Option (List Char)
  | 'T' :: rest | 't' :: rest | ' ' :: rest => some rest
  | _ => none

def readChars (cs : List Char) : Option Instant := do
  let (year, cs) ← readYear cs
  let cs ← readMark '-' cs
  let (month, cs) ← readPart 2 cs
  let cs ← readMark '-' cs
  let (day, cs) ← readPart 2 cs
  let cs ← readDateEnd cs
  let (hour, cs) ← readPart 2 cs
  let cs ← readMark ':' cs
  let (minute, cs) ← readPart 2 cs
  let cs ← readMark ':' cs
  let (second, cs) ← readPart 2 cs
  let (nanos, cs) ← readFraction cs
  let (offset, cs) ← readOffset (skipBlanks cs)
  if (skipBlanks cs).isEmpty then
    let wall ← ofFields? year month day hour minute second nanos
    wall.behind? offset
  else none

def read (text : String) : Option Instant :=
  readChars text.toList

end Reckoner.Instant
