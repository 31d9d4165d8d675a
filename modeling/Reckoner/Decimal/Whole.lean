/-!
# Whole numbers in decimal

Digits, their value, and the reading of a number that has to fit a word. `read` meets the faults
of a text from left to right, so a number that is already too large is reported before a bad digit
that follows.
-/

namespace Reckoner.Decimal

def digitValue (c : Char) : Nat :=
  c.toNat - '0'.toNat

/-- The number that digits denote when they follow the digits of `start`. -/
def valueAfter (start : Nat) (digits : List Char) : Nat :=
  digits.foldl (fun n c => 10 * n + digitValue c) start

def value (digits : List Char) : Nat :=
  valueAfter 0 digits

theorem valueAfter_append (start : Nat) (a b : List Char) :
    valueAfter start (a ++ b) = valueAfter (valueAfter start a) b := by
  simp [valueAfter]

namespace Whole

inductive Fault where
  | empty
  | invalidDigit
  | tooLarge
  deriving DecidableEq, Repr

def Fault.message : Fault → String
  | .empty => "cannot parse integer from empty string"
  | .invalidDigit => "invalid digit found in string"
  | .tooLarge => "number too large to fit in target type"

/-- Reads digits behind a number already read, below `bound`. -/
def readDigits (bound : Nat) (n : Nat) : List Char → Except Fault Nat
  | [] => .ok n
  | c :: cs =>
    if c.isDigit then
      let next := 10 * n + digitValue c
      if next < bound then readDigits bound next cs else .error .tooLarge
    else .error .invalidDigit

/-- Reads a number below `bound`; one plus sign may stand before the digits. -/
def read (bound : Nat) : List Char → Except Fault Nat
  | [] => .error .empty
  | ['+'] => .error .invalidDigit
  | '+' :: cs => readDigits bound 0 cs
  | cs => readDigits bound 0 cs

end Whole

end Reckoner.Decimal
