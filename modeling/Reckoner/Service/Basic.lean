import Reckoner.Formula.Evaluation
import Reckoner.Formula.Parser
import Reckoner.Store.Basic
import Reckoner.Worker

/-!
# The service

A service holds the cost table in force, the store, a fixed number of workers and the callers that
are inside one of its operations. Submitted texts are parsed by the caller and handed over to a
worker in person: there is no queue between them, and a caller waits until a worker takes the
calculation. A caller reserves a handoff before it announces a calculation as queued; the intake may
close in between, but workers leave only when no handoff is outstanding.
-/

namespace Reckoner

/-- When the listener is told of a calculation. -/
inductive Occasion where
  | created
  | changed
  | completed
  deriving DecidableEq, Repr

/-- What the listener is told: the calculation as it is at that moment. -/
structure Notice where
  occasion : Occasion
  calculation : Calculation

structure Reaction where
  /-- Whether it passes the notice on to the store. -/
  keeps : Bool
  panics : Bool

/-- What a pacer does at the beginning of a pause. -/
structure PauseReaction where
  table : Option CostTable
  panics : Bool

/-- Those whom a service relies on: a listener, by the number of earlier notices; a pacer, by the
number of the pause, counted from one; and a clock, by the number of earlier readings. -/
structure Collaborators where
  listener : Nat → Notice → Reaction
  pacer : Nat → PauseReaction
  clock : Nat → Instant

/-- A listener that passes everything on and a pacer that only waits. -/
def Collaborators.plain (clock : Nat → Instant) : Collaborators where
  listener := fun _ _ => ⟨true, false⟩
  pacer := fun _ => ⟨none, false⟩
  clock := clock

namespace Service

inductive Stage where
  /-- At the rendezvous, without a calculation. -/
  | waiting
  | received (c : Calculation)
  /-- Shown as busy. -/
  | begun (c : Calculation)
  | evaluating (c : Calculation) (e : Evaluation)
  /-- Inside a pause; the evaluation goes on behind it. -/
  | pausing (c : Calculation) (e : Evaluation)
  | concluding (c : Calculation) (outcome : Except Error Float)
  /-- A collaborator panicked. -/
  | recovering (c : Calculation)
  /-- To be shown as idle again. -/
  | releasing
  /-- Left the pool after the intake was closed. -/
  | exited
  /-- Ended by a panic that nobody caught. -/
  | lost

structure Worker where
  stage : Stage
  view : WorkerView

namespace Worker

def idle (index : Nat) : Worker :=
  ⟨.waiting, .idle (UInt64.ofNat index)⟩

def isWaiting (w : Worker) : Bool :=
  match w.stage with
  | .waiting => true
  | _ => false

/-- Whether the worker has ended, one way or the other. -/
def isGone (w : Worker) : Bool :=
  match w.stage with
  | .exited | .lost => true
  | _ => false

end Worker

inductive Reply where
  | submitted (c : Calculation)
  | resumed (count : Nat)
  | accepted
  | dropped
  | stopped
  | refused (e : Error)
  /-- The listener panicked while the caller told it. -/
  | unwound

/-- What a caller does when a worker has taken its calculation. -/
inductive Then where
  | submitted
  | accepted
  | resume (rest : List Calculation) (count : Nat)

inductive Caller where
  | submit (text : String)
  /-- Told the listener of the new calculation. -/
  | parse (c : Calculation)
  | reserve (c : Calculation) (plan : Formula)
  /-- Found the intake closed. -/
  | reject (c : Calculation)
  /-- Resubmits calculations found pending after a restart, so many handed over so far. -/
  | resume (rest : List Calculation) (count : Nat)
  /-- Holds a handoff for a pending calculation. -/
  | reopen (c : Calculation) (rest : List Calculation) (count : Nat)
  /-- Holds a handoff and has to announce the calculation as queued. -/
  | announce (c : Calculation) (plan : Formula) (next : Then)
  /-- Uses its handoff. -/
  | send (c : Calculation) (next : Then)
  | offer (c : Calculation) (next : Then)
  /-- Reserves a handoff and uses it for a calculation prepared elsewhere. -/
  | request (c : Calculation)
  /-- Reserves a handoff to hold it. -/
  | acquire
  | hold
  | close
  | join
  | done (reply : Reply)

namespace Caller

/-- Whether the caller holds a handoff, which keeps the workers in the pool. -/
def holdsHandoff : Caller → Bool
  | reopen .. | announce .. | send .. | offer .. | hold => true
  | _ => false

def reply? : Caller → Option Reply
  | done reply => some reply
  | _ => none

end Caller

end Service

structure Service where
  table : CostTable
  store : Store
  isOpen : Bool
  workers : List Service.Worker
  callers : List Service.Caller
  /-- Everything that the listener was told, latest first. -/
  notices : List Notice
  /-- All pauses, latest first. -/
  charges : List Charge
  readings : Nat

namespace Service

def opened (workers : Nat) (table : CostTable) (store : Store) : Service :=
  ⟨table, store, true, (List.range workers).map Worker.idle, [], [], [], 0⟩

def start (workers : Nat) (table : CostTable) (store : Store) : Except Error Service :=
  if workers = 0 then .error (.configuration "workers" "pool needs at least one worker")
  else .ok (opened workers table store)

/-- What every worker shows, in the order of the workers. -/
def views (s : Service) : List WorkerView :=
  s.workers.map Worker.view

/-- Out of notices, latest first, those since the latest creation. -/
def sinceCreation : List Notice → List Notice
  | [] => []
  | n :: earlier => if n.occasion = .created then [n] else n :: sinceCreation earlier

/-- The labels that the listener was told for a number since a calculation was created under it,
earliest first. -/
def trail (s : Service) (id : Calculation.Id) : List String :=
  (sinceCreation (s.notices.filter fun n => n.calculation.id = some id)).reverse.map fun n =>
    n.calculation.status.label

/-- The numbers that the listener was told of, ascending. -/
def told (s : Service) : List Calculation.Id :=
  ((s.notices.filterMap fun n => n.calculation.id).mergeSort (· ≤ ·)).eraseDups

/-- The pauses so far, earliest first. -/
def log (s : Service) : List Charge :=
  s.charges.reverse

def hasHandoff (s : Service) : Bool :=
  s.callers.any Caller.holdsHandoff

/-- Replaces the table if no entry is negative. -/
def setCosts (s : Service) (plus minus multiply divide : Int64) :
    Except Error (CostTable × Service) := do
  let table ← CostTable.ofMillis plus minus multiply divide
  return (table, { s with table })

end Service

end Reckoner
