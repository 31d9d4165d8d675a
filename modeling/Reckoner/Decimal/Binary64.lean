/-!
# Binary64 values

A floating-point value taken apart: sign, mantissa and power of two.
-/

namespace Reckoner.Decimal

/-- The number `mantissa · 2 ^ exponent`. -/
structure Magnitude where
  mantissa : Nat
  exponent : Int
  deriving DecidableEq, Repr

inductive Binary64 where
  | nan
  | infinite (negative : Bool)
  | finite (negative : Bool) (magnitude : Magnitude)
  deriving DecidableEq, Repr

namespace Binary64

/-- `2 ^ 52`, the leading bit of a mantissa, which a word leaves out. -/
def hiddenBit : Nat :=
  0x10000000000000

/-- The least exponent; a mantissa without the leading bit has no other. -/
def leastExponent : Int :=
  -1074

/-- The three fields of a word: sign, biased exponent and fraction. -/
def ofBits (bits : Nat) : Binary64 :=
  let negative := decide (bits >>> 63 ≠ 0)
  let biased : Nat := (bits >>> 52) % 0x800
  let fraction : Nat := bits % hiddenBit
  if biased = 2047 then
    if fraction = 0 then .infinite negative else .nan
  else if biased = 0 then .finite negative ⟨fraction, leastExponent⟩
  else .finite negative ⟨hiddenBit + fraction, Int.ofNat biased - 1075⟩

def ofFloat (x : Float) : Binary64 :=
  ofBits x.toBits.toNat

end Binary64

end Reckoner.Decimal
