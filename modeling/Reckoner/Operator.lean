/-!
# Operators

The four binary operators, in the order in which their costs are configured.
-/

namespace Reckoner

inductive Operator where
  | plus
  | minus
  | multiply
  | divide
  deriving DecidableEq, Repr, Inhabited

namespace Operator

def all : List Operator :=
  [plus, minus, multiply, divide]

def name : Operator → String
  | plus => "plus"
  | minus => "minus"
  | multiply => "multiply"
  | divide => "divide"

def symbol : Operator → Char
  | plus => '+'
  | minus => '-'
  | multiply => '*'
  | divide => '/'

def ofSymbol? : Char → Option Operator
  | '+' => some plus
  | '-' => some minus
  | '*' => some multiply
  | '/' => some divide
  | _ => none

@[simp] theorem ofSymbol?_symbol (op : Operator) : ofSymbol? op.symbol = some op := by
  cases op <;> rfl

theorem symbol_of_ofSymbol? {c : Char} {op : Operator} (h : ofSymbol? c = some op) :
    op.symbol = c := by
  unfold ofSymbol? at h
  split at h <;> cases h <;> rfl

/-- The complaint about a character that is no operator. -/
def unknownMessage (c : Char) : String :=
  String.ofList ("unknown operator '".toList ++ [c, '\''])

/-- The sums `+` and `-` bind weaker than the products `*` and `/`. -/
def isSum : Operator → Bool
  | plus | minus => true
  | multiply | divide => false

def apply : Operator → Float → Float → Float
  | plus, x, y => x + y
  | minus, x, y => x - y
  | multiply, x, y => x * y
  | divide, x, y => x / y

end Operator

end Reckoner
