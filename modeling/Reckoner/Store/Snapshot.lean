import Reckoner.CostTable.Json
import Reckoner.Calculation.Json
import Reckoner.File
import Reckoner.Store.Basic

/-!
# Snapshots of the store

A store is written as a JSON file and restored from one. A restored store goes on behind the
largest number of the file.
-/

namespace Reckoner

open Reckoner.Json (RecordField Read Reading Fault)

structure Snapshot where
  nextId : Calculation.Id
  costs : Option CostTable
  calculations : List Calculation

namespace Snapshot

def ofStore (s : Store) : Snapshot :=
  ⟨s.nextId, s.costs, s.all⟩

def toJson (s : Snapshot) : Json :=
  .object [("next_id", Calculation.idToJson s.nextId),
    ("costs", .ofOption CostTable.toJson s.costs),
    ("expressions", .list (s.calculations.map Calculation.toJson))]

structure Draft where
  nextId : Option Calculation.Id
  costs : Option CostTable
  calculations : Option (List Calculation)

def fields : List (RecordField Draft) :=
  [.required "next_id" Reading.asUInt64 fun x d => { d with nextId := some x },
    .optional "costs" (Reading.asOption CostTable.read) fun x d => { d with costs := x },
    .required "expressions" (Reading.asList Calculation.read)
      fun x d => { d with calculations := some x }]

def Draft.finish (d : Draft) : Except Fault Snapshot :=
  match d.nextId, d.calculations with
  | some nextId, some calculations => .ok ⟨nextId, d.costs, calculations⟩
  | _, _ => .error .mismatched

def read : Read Snapshot := fun v => do
  (← RecordField.readRecord fields ⟨none, none, none⟩ v).finish

/-- The records of the calculations that have a number; a later one replaces an earlier one. -/
def records (s : Snapshot) : Records :=
  s.calculations.foldl (fun records c =>
    match c.id with
    | some id => records.insert id c
    | none => records) ∅

def highest (s : Snapshot) : Calculation.Id :=
  s.calculations.foldl (fun high c => match c.id with
    | some id => max high id
    | none => high) 0

def restore (s : Snapshot) : Store :=
  ⟨max s.nextId (s.highest + 1), s.costs, s.records⟩

end Snapshot

namespace Store

def save (s : Store) : String :=
  (Snapshot.ofStore s).toJson.pretty

def writeError (path : String) (fault : FileFault) : Error :=
  .storage ("failed to write snapshot '" ++ path ++ "': " ++ fault.message)

def readError (path : String) (fault : FileFault) : Error :=
  .storage ("failed to read snapshot '" ++ path ++ "': " ++ fault.message)

def decodeError : Error :=
  .storage "failed to decode snapshot"

def load (text : String) : Except Error Store :=
  match Json.decode Snapshot.read text with
  | .ok s => .ok s.restore
  | .error _ => .error decodeError

/-- The store of a file; where no path leads to anything it is empty. -/
def restore (path : String) : File → Except Error Store
  | .error .missing | .error .blocked => .ok .empty
  | .error .directory => .error (readError path .directory)
  | .ok content =>
    match String.fromUTF8? content with
    | some text => load text
    | none => .error decodeError

end Store

end Reckoner
