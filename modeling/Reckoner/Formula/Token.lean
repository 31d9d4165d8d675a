import Reckoner.Decimal.Layout
import Reckoner.Decimal.Whole
import Reckoner.Operator

/-!
# Tokens

The words of an expression: numbers, operators and parentheses.
-/

namespace Reckoner.Formula

inductive Token where
  | number (value : Float)
  | operator (op : Operator)
  | leftParen
  | rightParen

namespace Token

def text : Token → String
  | number x => Decimal.Layout.plain.render x
  | operator op => op.symbol.toString
  | leftParen => "("
  | rightParen => ")"

end Token

/-- Characters that belong to a run of digits and dots. -/
def isNumeric (c : Char) : Bool :=
  c.isDigit || c = '.'

/-- The number that a run of digits and dots denotes: digits with at most one dot among them. -/
def literal? (run : List Char) : Option Float :=
  let whole := run.takeWhile Char.isDigit
  match run.dropWhile Char.isDigit with
  | [] => if whole.isEmpty then none else some (Float.ofScientific (Decimal.value whole) true 0)
  | _ :: fraction =>
    if fraction.all Char.isDigit && !(whole ++ fraction).isEmpty then
      some (Float.ofScientific (Decimal.value (whole ++ fraction)) true fraction.length)
    else none

end Reckoner.Formula
