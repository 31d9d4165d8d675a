import Reckoner.Duration
import Reckoner.Error
import Reckoner.Operator

/-!
# Cost tables

The simulated time that each operator takes. A table built from signed milliseconds must have no
negative entry; the first one in configuration order is blamed.
-/

namespace Reckoner

structure CostTable where
  plus : Duration
  minus : Duration
  multiply : Duration
  divide : Duration
  deriving DecidableEq, Inhabited

namespace CostTable

def uniform (d : Duration) : CostTable :=
  ⟨d, d, d, d⟩

def zero : CostTable :=
  uniform .zero

def cost (table : CostTable) : Operator → Duration
  | .plus => table.plus
  | .minus => table.minus
  | .multiply => table.multiply
  | .divide => table.divide

def entries (table : CostTable) : List (Operator × Duration) :=
  Operator.all.map fun op => (op, table.cost op)

/-- The duration of a number of milliseconds that must not be negative. -/
def duration (setting : String) (ms : Int64) : Except Error Duration :=
  if ms.toInt < 0 then
    .error (.configuration setting
      ("duration must not be negative, got " ++ toString ms.toInt ++ "ms"))
  else .ok (.ofMillis (UInt64.ofNat ms.toInt.toNat))

def ofMillis (plus minus multiply divide : Int64) : Except Error CostTable := do
  let plus ← duration "plus" plus
  let minus ← duration "minus" minus
  let multiply ← duration "multiply" multiply
  let divide ← duration "divide" divide
  return ⟨plus, minus, multiply, divide⟩

end CostTable

end Reckoner
