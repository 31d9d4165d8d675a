import Reckoner.Decimal.Whole

/-!
# Numbers in JSON texts

A number as it is spelt, and the value it is given. A number with neither point nor exponent is
whole if a 64-bit word holds it; every other number becomes a float by one multiplication or
division of its leading digits by a power of ten.
-/

namespace Reckoner.Json

structure Literal where
  negative : Bool
  whole : List Char
  fraction : Option (List Char)
  /-- The sign of the exponent, true for minus, and its digits. -/
  exponent : Option (Bool × List Char)
  deriving DecidableEq, Repr

inductive Number where
  | whole (n : Int)
  | real (x : Float)
  | outOfRange

namespace Literal

/-- The leading digits that a word can hold. -/
structure Significand where
  value : Nat
  /-- The number of digits behind those, none of which counts any more. -/
  dropped : Nat
  deriving DecidableEq, Repr

/-- Takes digits while the value fits a 64-bit word; the first that does not fit ends it. -/
def Significand.take (value : Nat) : List Char → Significand
  | [] => ⟨value, 0⟩
  | c :: cs =>
    let next := 10 * value + Decimal.digitValue c
    if next < UInt64.size then take next cs else ⟨value, cs.length + 1⟩

/-- The exact power of ten where binary64 has it, the nearest float up to `10 ^ 308`. -/
def powerOfTen (n : Nat) : Float :=
  Float.ofScientific 1 false n

/-- Divides by `10 ^ 308` until the rest of the exponent is in the table. -/
def scaleDown (x : Float) (exponent : Nat) : Float :=
  if exponent ≤ 308 then x / powerOfTen exponent
  else if x == 0 then x
  else scaleDown (x / powerOfTen 308) (exponent - 308)
termination_by exponent

/-- The significand times a power of ten, unless that is infinite. -/
def scale (significand : Nat) (exponent : Int) : Option Float :=
  let x := (UInt64.ofNat significand).toFloat
  if exponent < 0 then some (scaleDown x exponent.natAbs)
  else if exponent ≤ 308 then
    let y := x * powerOfTen exponent.toNat
    if y.isInf then none else some y
  else if x == 0 then some x
  else none

/-- Saturates at the ends of a 32-bit word. -/
def clampExponent (e : Int) : Int :=
  max Int32.minValue.toInt (min Int32.maxValue.toInt e)

/-- The digits that count and the power of ten of the last one, before the written exponent. -/
def decimal (l : Literal) : Nat × Int :=
  let front := Significand.take 0 l.whole
  match l.fraction with
  | none => (front.value, front.dropped)
  | some digits =>
    let all := Significand.take front.value digits
    (all.value, front.dropped - (digits.length - all.dropped : Nat))

/-- The magnitude as a float. An exponent beyond 32 bits gives zero or nothing. -/
def magnitude? (l : Literal) : Option Float :=
  let (significand, power) := l.decimal
  match l.exponent with
  | none => scale significand power
  | some (negative, digits) =>
    let n := Decimal.value digits
    if Int32.maxValue.toInt < n then
      if significand ≠ 0 && !negative then none else some 0
    else scale significand (clampExponent (if negative then power - n else power + n))

def isWhole (l : Literal) : Bool :=
  l.fraction.isNone && l.exponent.isNone

def number (l : Literal) : Number :=
  let n := Decimal.value l.whole
  let real := match l.magnitude? with
    | some x => .real (if l.negative then -x else x)
    | none => .outOfRange
  if !l.isWhole then real
  else if l.negative then
    if 0 < n && n ≤ Int64.minValue.toInt.natAbs then .whole (-n) else real
  else if n < UInt64.size then .whole n else real

end Literal

end Reckoner.Json
