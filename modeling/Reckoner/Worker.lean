import Reckoner.Calculation.Json

/-!
# Occupancy of workers

What a worker shows to those who ask: whether it is busy, and with which calculation.
-/

namespace Reckoner

open Reckoner.Json (RecordField Read Reading Fault)

inductive Occupancy where
  | idle
  | busy
  deriving DecidableEq, Repr, Inhabited

structure WorkerView where
  index : UInt64
  state : Occupancy
  current : Option Calculation.Id
  deriving DecidableEq, Repr, Inhabited

namespace WorkerView

def idle (index : UInt64) : WorkerView :=
  ⟨index, .idle, none⟩

def isBusy (w : WorkerView) : Bool :=
  w.state = .busy

def stateName : Occupancy → String
  | .idle => "idle"
  | .busy => "busy"

def toJson (w : WorkerView) : Json :=
  .object ([("id", .ofNat w.index.toNat), ("state", .text (stateName w.state))]
    ++ w.current.toList.map fun id => ("current_expression", Calculation.idToJson id))

structure Draft where
  index : Option UInt64
  state : Option Occupancy
  current : Option Calculation.Id

def fields : List (RecordField Draft) :=
  [.required "id" Reading.asUInt64 fun x d => { d with index := some x },
    .required "state" (Reading.asName [("idle", Occupancy.idle), ("busy", .busy)])
      fun x d => { d with state := some x },
    .optional "current_expression" (Reading.asOption Reading.asUInt64)
      fun x d => { d with current := x }]

def Draft.finish (d : Draft) : Except Fault WorkerView :=
  match d.index, d.state with
  | some index, some state => .ok ⟨index, state, d.current⟩
  | _, _ => .error .mismatched

def read : Read WorkerView := fun v => do
  (← RecordField.readRecord fields ⟨none, none, none⟩ v).finish

end WorkerView

end Reckoner
