import Reckoner.Decimal.Shortest

/-!
# Written forms of a number

A layout says which decimal exponents are written positionally, whether a whole number keeps a zero
behind its point, and where ties go. Every form has the fewest digits that read back.
-/

namespace Reckoner.Decimal

structure Layout where
  /-- Whether a number is written without an exponent, by the power of ten of its first digit. -/
  positional : Int → Bool
  pointZero : Bool
  tie : Tie
  infinity : String
  nan : String

/-- Positional throughout, a whole number without a point, ties upwards. -/
def Layout.plain : Layout where
  positional := fun _ => true
  pointZero := false
  tie := .up
  infinity := "inf"
  nan := "NaN"

namespace Scaled

/-- The digits without trailing zeros, and the power of ten of the last one left. -/
def normal (d : Scaled) : List Char × Int :=
  let all := Nat.toDigits 10 d.digits
  let kept := (all.reverse.dropWhile (· = '0')).reverse
  (kept, d.power + (all.length - kept.length : Nat))

end Scaled

/-- Digits whose last has the place `10 ^ power`, with all places down to the point written out. -/
def positionalText (pointZero : Bool) (digits : List Char) (power : Int) : List Char :=
  if 0 ≤ power then
    digits ++ List.replicate power.toNat '0' ++ (if pointZero then ['.', '0'] else [])
  else
    let places := (-power).toNat
    let padded := List.replicate (places + 1 - digits.length) '0' ++ digits
    padded.take (padded.length - places) ++ '.' :: padded.drop (padded.length - places)

/-- One digit, the point with the other digits if there are any, and a signed exponent. -/
def scientificText (digits : List Char) (exponent : Int) : List Char :=
  let mantissa := match digits with
    | first :: second :: rest => first :: '.' :: second :: rest
    | short => short
  let mark := if exponent < 0 then '-' else '+'
  mantissa ++ 'e' :: mark :: Nat.toDigits 10 exponent.natAbs

def Layout.magnitudeText (l : Layout) (m : Magnitude) : List Char :=
  if m.mantissa = 0 then positionalText l.pointZero ['0'] 0
  else
    let (digits, power) := (m.shortest l.tie).normal
    let exponent := power + (digits.length - 1 : Nat)
    if l.positional exponent then positionalText l.pointZero digits power
    else scientificText digits exponent

def Layout.text (l : Layout) (x : Float) : List Char :=
  let signed (negative : Bool) (cs : List Char) := if negative then '-' :: cs else cs
  match Binary64.ofFloat x with
  | .nan => l.nan.toList
  | .infinite negative => signed negative l.infinity.toList
  | .finite negative m => signed negative (l.magnitudeText m)

def Layout.render (l : Layout) (x : Float) : String :=
  String.ofList (l.text x)

end Reckoner.Decimal
