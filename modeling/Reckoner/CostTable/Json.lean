import Reckoner.CostTable
import Reckoner.Json.Basic
import Reckoner.Json.Decode

/-!
# Cost tables in JSON

An object with the whole milliseconds of every operator.
-/

namespace Reckoner.CostTable

open Reckoner.Json (RecordField Read)

def toJson (t : CostTable) : Json :=
  .object (t.entries.map fun (op, d) => (op.name, .ofNat d.wordMillis.toNat))

def readDuration : Read Duration := fun v =>
  v.asUInt64.map .ofMillis

def fields : List (RecordField CostTable) :=
  [.required "plus" readDuration fun d t => { t with plus := d },
    .required "minus" readDuration fun d t => { t with minus := d },
    .required "multiply" readDuration fun d t => { t with multiply := d },
    .required "divide" readDuration fun d t => { t with divide := d }]

def read : Read CostTable :=
  RecordField.readRecord fields zero

end Reckoner.CostTable
