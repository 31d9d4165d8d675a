import Reckoner.Decimal.Binary64

/-!
# The fewest digits that read back

The numbers that round to a binary64 value form an interval around it. `shortest` looks at the
value's two neighbours on decimal grids of one, two, … seventeen digits and takes the first grid
with a neighbour inside the interval, the nearer one if both are; `select_readsBack` says that what
a grid offers lies in the interval.
-/

namespace Reckoner.Decimal

/-- Where a number halfway between two candidates goes. -/
inductive Tie where
  | toEven
  | up
  deriving DecidableEq, Repr

/-- The number `digits · 10 ^ power`. -/
structure Scaled where
  digits : Nat
  power : Int
  deriving DecidableEq, Repr

namespace Magnitude

/-- The rounding interval, in quarters of the last place: its ends and the value itself. -/
def lower (m : Magnitude) : Nat :=
  if m.mantissa = Binary64.hiddenBit ∧ m.exponent ≠ Binary64.leastExponent then
    4 * m.mantissa - 1
  else 4 * m.mantissa - 2

def center (m : Magnitude) : Nat :=
  4 * m.mantissa

def upper (m : Magnitude) : Nat :=
  4 * m.mantissa + 2

/-- `x` quarters of the last place against `c` units of `10 ^ power`, both as naturals over one
denominator. -/
def quarters (m : Magnitude) (power : Int) (x : Nat) : Nat :=
  x * Nat.pow 2 (m.exponent - 2).toNat * Nat.pow 10 (-power).toNat

def units (m : Magnitude) (power : Int) (c : Nat) : Nat :=
  c * Nat.pow 10 power.toNat * Nat.pow 2 (2 - m.exponent).toNat

/-- Whether `d` rounds to the value: inside the interval, or on its edge and the mantissa even. -/
def readsBack (m : Magnitude) (d : Scaled) : Bool :=
  let x := m.units d.power d.digits
  let low := m.quarters d.power m.lower
  let high := m.quarters d.power m.upper
  if m.mantissa % 2 = 0 then low ≤ x && x ≤ high else low < x && x < high

/-- The neighbour of the value on the grid of `10 ^ power` that reads back, the nearer of two. -/
def select (m : Magnitude) (tie : Tie) (power : Int) : Option Scaled :=
  let value := m.quarters power m.center
  let below := value / m.units power 1
  let down : Scaled := ⟨below, power⟩
  let up : Scaled := ⟨below + 1, power⟩
  match m.readsBack down, m.readsBack up with
  | true, false => some down
  | false, true => some up
  | false, false => none
  | true, true =>
    let twice := 2 * value
    let middle := m.units power (2 * below + 1)
    if twice < middle then some down
    else if middle < twice then some up
    else match tie with
      | .up => some up
      | .toEven => if below % 2 = 0 then some down else some up

theorem select_readsBack {m : Magnitude} {tie : Tie} {power : Int} {d : Scaled}
    (h : m.select tie power = some d) : m.readsBack d = true := by
  simp only [select] at h
  split at h
  · cases h; assumption
  · cases h; assumption
  · cases h
  · split at h
    · cases h; assumption
    · split at h
      · cases h; assumption
      · cases tie
        · simp only at h
          split at h <;> (cases h; assumption)
        · cases h; assumption

/-- The power of ten of the value's first digit. -/
def leadingPower (m : Magnitude) : Int :=
  let num := m.mantissa * Nat.pow 2 m.exponent.toNat
  let den := Nat.pow 2 (-m.exponent).toNat
  let guess : Int := (Nat.toDigits 10 num).length - (Nat.toDigits 10 den).length
  if den * Nat.pow 10 guess.toNat ≤ num * Nat.pow 10 (-guess).toNat then guess else guess - 1

/-- The first grid from `10 ^ power` downwards that offers a digit string, within `tries` grids. -/
def search (m : Magnitude) (tie : Tie) (power : Int) : Nat → Option Scaled
  | 0 => none
  | tries + 1 =>
    match m.select tie power with
    | some d => some d
    | none => m.search tie (power - 1) tries

/-- The shortest decimal that rounds to a value other than zero. -/
def shortest (m : Magnitude) (tie : Tie) : Scaled :=
  (m.search tie m.leadingPower 17).getD ⟨m.mantissa, m.exponent⟩

end Magnitude

end Reckoner.Decimal
