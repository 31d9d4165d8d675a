import Reckoner.Service.Basic

/-!
# Summaries

One line about a service and its pool, for those who look after it.
-/

namespace Reckoner

/-- A name and, in braces, the fields behind it. -/
def summaryOf (name : String) (fields : List String) : String :=
  name ++ " \x7b " ++ ", ".intercalate fields ++ " \x7d"

def CostTable.summary (t : CostTable) : String :=
  summaryOf "OperationCosts" (t.entries.map fun (op, d) => op.name ++ ": " ++ d.text)

namespace Service

def poolSummary (s : Service) : String :=
  summaryOf "WorkerPool"
    ["workers: " ++ toString s.workers.length, "running: " ++ toString s.isOpen]

def summary (s : Service) : String :=
  summaryOf "CalculationService"
    ["costs: " ++ s.table.summary, "pool: " ++ s.poolSummary, ".."]

end Service

end Reckoner
