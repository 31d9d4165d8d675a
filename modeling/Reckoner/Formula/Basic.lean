import Reckoner.CostTable
import Reckoner.Decimal.Layout

/-!
# Formulas

Trees of numbers and binary operators. `value` is what a formula means when no time passes, and
`postOrder` the order in which its operators are charged.
-/

namespace Reckoner

inductive Formula where
  | number (value : Float)
  | binary (left : Formula) (op : Operator) (right : Formula)
  deriving Inhabited

namespace Formula

/-- Equal trees with equal numbers, as floating-point numbers compare. -/
def same : Formula → Formula → Bool
  | number x, number y => x == y
  | binary l op r, binary l' op' r' => same l l' && op = op' && same r r'
  | _, _ => false

def operatorCount : Formula → Nat
  | number _ => 0
  | binary l _ r => 1 + l.operatorCount + r.operatorCount

/-- Operators, each behind those of its operands. -/
def postOrder : Formula → List Operator
  | number _ => []
  | binary l op r => l.postOrder ++ r.postOrder ++ [op]

theorem length_postOrder (f : Formula) : f.postOrder.length = f.operatorCount := by
  induction f with
  | number => rfl
  | binary l op r hl hr => simp [postOrder, operatorCount, hl, hr]; omega

/-- The tree with a pair of parentheses for every operator. -/
def renderChars : Formula → List Char
  | number x => Decimal.Layout.plain.text x
  | binary l op r => '(' :: l.renderChars ++ [' ', op.symbol, ' '] ++ r.renderChars ++ [')']

def render (f : Formula) : String :=
  String.ofList f.renderChars

/-- What all operators cost together under one table, unless the sum leaves the range. -/
def estimatedCost? (f : Formula) (table : CostTable) : Option Duration :=
  Duration.sum? (f.postOrder.map table.cost)

/-- The quotient has no value if the right operand is a zero of either sign; operands come first,
from left to right. -/
def value : Formula → Except Error Float
  | number x => .ok x
  | binary l op r => do
    let x ← l.value
    let y ← r.value
    if op = .divide && y == 0 then .error .divisionByZero
    else .ok (op.apply x y)

end Formula

end Reckoner
