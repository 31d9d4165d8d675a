import Reckoner.Formula.Basic

/-!
# Charged evaluation

Evaluating a formula takes simulated time: every operator reads its cost when its node is entered
and pauses for it when both operands are known. `evaluate` runs a formula against a meter whose
table may be replaced after any pause. `Evaluation` is the same computation cut into single steps,
for workers that run side by side.
-/

namespace Reckoner

/-- An operator that was paid for, with the duration of the pause. -/
structure Charge where
  op : Operator
  duration : Duration
  deriving DecidableEq

/-- The table in force and the pauses so far, latest first. -/
structure Meter where
  table : CostTable
  charges : List Charge

namespace Meter

def start (table : CostTable) : Meter :=
  ⟨table, []⟩

/-- A pause; the schedule may replace the table after the n-th one. -/
def pause (schedule : Nat → Option CostTable) (m : Meter) (c : Charge) : Meter :=
  let charges := c :: m.charges
  ⟨(schedule charges.length).getD m.table, charges⟩

/-- Pauses in the order in which they were taken. -/
def log (m : Meter) : List Charge :=
  m.charges.reverse

def total? (m : Meter) : Option Duration :=
  Duration.sum? (m.log.map Charge.duration)

end Meter

namespace Formula

def evaluate (schedule : Nat → Option CostTable) :
    Formula → Meter → Except Error Float × Meter
  | number x, m => (.ok x, m)
  | binary l op r, m =>
    let cost := m.table.cost op
    match l.evaluate schedule m with
    | (.error e, m) => (.error e, m)
    | (.ok x, m) =>
      match r.evaluate schedule m with
      | (.error e, m) => (.error e, m)
      | (.ok y, m) =>
        if op = .divide && y == 0 then (.error .divisionByZero, m)
        else (.ok (op.apply x y), m.pause schedule ⟨op, cost⟩)

end Formula

/-- An operator node that was entered: waiting for its left operand, or for its right one. -/
inductive Entered where
  | left (op : Operator) (cost : Duration) (right : Formula)
  | right (op : Operator) (cost : Duration) (left : Float)

/-- An evaluation between two steps: what is looked at, inside the nodes entered and not yet left,
innermost first. -/
inductive Evaluation where
  | enter (f : Formula) (inside : List Entered)
  | leave (x : Float) (inside : List Entered)

inductive Progress where
  | running (e : Evaluation)
  | pausing (c : Charge) (next : Evaluation)
  | finished (outcome : Except Error Float)

namespace Evaluation

def start (f : Formula) : Evaluation :=
  .enter f []

def step (table : CostTable) : Evaluation → Progress
  | .enter (.number x) inside => .running (.leave x inside)
  | .enter (.binary l op r) inside => .running (.enter l (.left op (table.cost op) r :: inside))
  | .leave x [] => .finished (.ok x)
  | .leave x (.left op cost r :: inside) => .running (.enter r (.right op cost x :: inside))
  | .leave y (.right op cost x :: inside) =>
    if op = .divide && y == 0 then .finished (.error .divisionByZero)
    else .pausing ⟨op, cost⟩ (.leave (op.apply x y) inside)

/-- Upper bound for the steps left. -/
def work : Evaluation → Nat
  | .enter f inside => 4 * f.operatorCount + 2 + insideWork inside
  | .leave _ inside => 1 + insideWork inside
where
  insideWork : List Entered → Nat
    | [] => 0
    | .left _ _ r :: rest => 4 * r.operatorCount + 3 + insideWork rest
    | .right .. :: rest => 1 + insideWork rest

end Evaluation

end Reckoner
