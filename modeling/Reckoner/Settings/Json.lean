import Reckoner.Json.Basic
import Reckoner.Json.Decode
import Reckoner.Settings.Basic

/-!
# Settings in JSON

An object of sections; what is missing has its default.
-/

namespace Reckoner.Settings

open Reckoner.Json (RecordField Read Reading)

def Server.read : Read Server :=
  RecordField.readRecord
    [.defaulted "host" Reading.asText fun x s => { s with host := x },
      .defaulted "port" Reading.asUInt16 fun x s => { s with port := x },
      .defaulted "max_body_size_kb" Reading.asUInt64 fun x s => { s with maxBodyKb := x }]
    .default

def Pool.read : Read Pool :=
  RecordField.readRecord [.defaulted "workers" Reading.asUInt64 fun x _ => ⟨x⟩] .default

def Costs.read : Read Costs :=
  RecordField.readRecord
    [.defaulted "plus_ms" Reading.asInt64 fun x s => { s with plus := x },
      .defaulted "minus_ms" Reading.asInt64 fun x s => { s with minus := x },
      .defaulted "multiply_ms" Reading.asInt64 fun x s => { s with multiply := x },
      .defaulted "divide_ms" Reading.asInt64 fun x s => { s with divide := x }]
    .default

def Storage.read : Read Storage :=
  RecordField.readRecord
    [.defaulted "snapshot_path" (Reading.asOption Reading.asText) fun x _ => ⟨x⟩] .default

def read : Read Settings :=
  RecordField.readRecord
    [.defaulted "server" Server.read fun x s => { s with server := x },
      .defaulted "pool" Pool.read fun x s => { s with pool := x },
      .defaulted "costs" Costs.read fun x s => { s with costs := x },
      .defaulted "store" Storage.read fun x s => { s with store := x }]
    default

def toJson (s : Settings) : Json :=
  .object
    [("server", .object [("host", .text s.server.host), ("port", .ofNat s.server.port.toNat),
      ("max_body_size_kb", .ofNat s.server.maxBodyKb.toNat)]),
    ("pool", .object [("workers", .ofNat s.pool.workers.toNat)]),
    ("costs", .object [("plus_ms", .whole s.costs.plus.toInt),
      ("minus_ms", .whole s.costs.minus.toInt), ("multiply_ms", .whole s.costs.multiply.toInt),
      ("divide_ms", .whole s.costs.divide.toInt)]),
    ("store", .object (s.store.snapshotPath.toList.map fun path => ("snapshot_path", .text path)))]

end Reckoner.Settings
