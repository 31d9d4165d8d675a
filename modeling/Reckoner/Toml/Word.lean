import Reckoner.Decimal.Whole
import Reckoner.Instant.Basic
import Reckoner.Json.Mark
import Reckoner.Toml.Basic

/-!
# Unquoted words in TOML

Truth values, numbers, dates and times are words without quotes. Single underscores may stand
between digits, and a decimal number has no leading zero.
-/

namespace Reckoner.Toml.Word

/-- Digits without the single underscores between them. -/
def ungrouped (isDigit : Char → Bool) : List Char → Option (List Char)
  | [] => none
  | [c] => if isDigit c then some [c] else none
  | c :: '_' :: cs => if isDigit c then (ungrouped isDigit cs).map (c :: ·) else none
  | c :: cs => if isDigit c then (ungrouped isDigit cs).map (c :: ·) else none

def unsigned : List Char → Bool × List Char
  | '-' :: cs => (true, cs)
  | '+' :: cs => (false, cs)
  | cs => (false, cs)

/-- Decimal digits without a leading zero. -/
def decimal? (cs : List Char) : Option (List Char) :=
  match ungrouped Char.isDigit cs with
  | some ('0' :: _ :: _) => none
  | digits => digits

def based? (base : Nat) (cs : List Char) : Option Int := do
  let isDigit (c : Char) := (Json.Mark.hexValue? c).any (· < base)
  let digits ← ungrouped isDigit cs
  let n := digits.foldl (fun n c => base * n + (Json.Mark.hexValue? c).getD 0) 0
  if n ≤ Int64.maxValue.toInt then some n else none

/-- A whole number that a signed word holds. -/
def whole? : List Char → Option Int
  | '0' :: 'x' :: cs => based? 16 cs
  | '0' :: 'o' :: cs => based? 8 cs
  | '0' :: 'b' :: cs => based? 2 cs
  | cs => do
    let (negative, cs) := unsigned cs
    let n : Int := Decimal.value (← decimal? cs)
    let n := if negative then -n else n
    if Int64.minValue.toInt ≤ n ∧ n ≤ Int64.maxValue.toInt then some n else none

/-- The number `digits · 10 ^ power`; beyond all doubles it is infinite, below all of them zero. -/
def scaled (digits : List Char) (power : Int) : Float :=
  let n := Decimal.value digits
  if n = 0 then 0
  else if 400 < power then 1.0 / 0.0
  else if power + digits.length < -400 then 0
  else Float.ofScientific n (power < 0) power.natAbs

def exponent? : List Char → Option Int
  | [] => some 0
  | e :: cs =>
    if e = 'e' ∨ e = 'E' then
      let (negative, cs) := unsigned cs
      (ungrouped Char.isDigit cs).map fun digits =>
        if negative then -(Decimal.value digits : Int) else Decimal.value digits
    else none

/-- The digits behind the point, and what follows them. -/
def fraction? : List Char → Option (List Char × List Char)
  | '.' :: cs => do
    let run := cs.takeWhile fun c => c ≠ 'e' && c ≠ 'E'
    return (← ungrouped Char.isDigit run, cs.drop run.length)
  | cs => some ([], cs)

/-- A number with a point, an exponent or a name. A positive one must not be too large for a
double. -/
def real? (cs : List Char) : Option Float := do
  let (negative, cs) := unsigned cs
  let signed (x : Float) := if negative then -x else x
  if cs = ['i', 'n', 'f'] then return signed (1.0 / 0.0)
  else if cs = ['n', 'a', 'n'] then return signed (0.0 / 0.0)
  else
    let run := cs.takeWhile fun c => c ≠ '.' && c ≠ 'e' && c ≠ 'E'
    let whole ← decimal? run
    let (fraction, rest) ← fraction? (cs.drop run.length)
    let power ← exponent? rest
    let x := scaled (whole ++ fraction) (power - fraction.length)
    if x.isInf && !negative then none else some (signed x)

/-! ### Dates and times -/

def digits? (cs : List Char) : Option Nat :=
  if cs.all Char.isDigit then some (Decimal.value cs) else none

def isDate : List Char → Bool
  | [a, b, c, d, '-', m, n, '-', x, y] =>
    match digits? [a, b, c, d], digits? [m, n], digits? [x, y] with
    | some year, some month, some day => Calendar.IsDate year month day
    | _, _, _ => false
  | _ => false

def isHourMinute (h i m n : Char) : Bool :=
  match digits? [h, i], digits? [m, n] with
  | some hour, some minute => hour < 24 && minute < 60
  | _, _ => false

def isOffset : List Char → Bool
  | [] | ['Z'] | ['z'] => true
  | [sign, h, i, ':', m, n] => (sign = '+' || sign = '-') && isHourMinute h i m n
  | _ => false

/-- A time of day, with an offset where one may stand. -/
def isTime (offset : List Char → Bool) : List Char → Bool
  | h :: i :: ':' :: m :: n :: ':' :: s :: t :: rest =>
    let second := match digits? [s, t] with
      | some second => second ≤ 60
      | none => false
    let tail := match rest with
      | '.' :: cs =>
        let digits := cs.takeWhile Char.isDigit
        !digits.isEmpty && offset (cs.drop digits.length)
      | cs => offset cs
    isHourMinute h i m n && second && tail
  | _ => false

def isMoment (cs : List Char) : Bool :=
  isDate cs || isTime List.isEmpty cs ||
    match cs.drop 10 with
    | t :: rest => isDate (cs.take 10) && (t = 'T' || t = 't') && isTime isOffset rest
    | [] => false

/-! ### Words -/

def isWordChar (c : Char) : Bool :=
  c.isAlphanum || c = '_' || c = '+' || c = '-' || c = '.' || c = ':'

def value? (cs : List Char) : Option Toml :=
  if cs = ['t', 'r', 'u', 'e'] then some (.bool true)
  else if cs = ['f', 'a', 'l', 's', 'e'] then some (.bool false)
  else if isMoment cs then some .time
  else match whole? cs with
    | some n => some (.whole n)
    | none => (real? cs).map .real

/-- A word at the front of a text. A date and a time may be parted by a blank. -/
def read : Scan Toml := fun cs =>
  let word := cs.takeWhile isWordChar
  let rest := cs.drop word.length
  match rest with
  | ' ' :: behind =>
    let next := behind.takeWhile isWordChar
    if isDate word && !next.isEmpty then
      if isTime isOffset next then some (.time, behind.drop next.length) else none
    else (value? word).map (·, rest)
  | rest => (value? word).map (·, rest)

end Reckoner.Toml.Word
