import Reckoner.File
import Reckoner.Settings.Basic
import Reckoner.Toml.Printing
import Reckoner.Toml.Reading

/-!
# The settings file

A TOML document with a table for every section. What is missing has its default, and what nobody
asks for does not count. A section may also be a list of its first settings in order.
-/

namespace Reckoner.Settings

/-- A setting of a section that is drafted in `σ`. -/
structure Setting (σ : Type) where
  key : String
  set : Toml → σ → Option σ

namespace Setting

def text (key : String) (set : String → σ → σ) : Setting σ where
  key
  set
    | .text s, draft => some (set s draft)
    | _, _ => none

/-- A whole number from `low` up to, but not including, `high`. -/
def whole (key : String) (low high : Int) (set : Int → σ → σ) : Setting σ where
  key
  set
    | .whole n, draft => if low ≤ n ∧ n < high then some (set n draft) else none
    | _, _ => none

def uint64 (key : String) (set : UInt64 → σ → σ) : Setting σ :=
  whole key 0 UInt64.size fun n => set (UInt64.ofNat n.toNat)

def int64 (key : String) (set : Int64 → σ → σ) : Setting σ :=
  whole key Int64.minValue.toInt (Int64.maxValue.toInt + 1) fun n => set (Int64.ofInt n)

/-- The settings that a value gives, on top of the defaults. -/
def readAll (settings : List (Setting σ)) (defaults : σ) : Toml → Option σ
  | .table es => settings.foldlM (fun draft s =>
      match es.lookup s.key with
      | some v => s.set v draft
      | none => some draft) defaults
  | .list items => (settings.zip items).foldlM (fun draft (s, v) => s.set v draft) defaults
  | .time => some defaults
  | _ => none

def part (key : String) (settings : List (Setting τ)) (defaults : τ) (set : τ → σ → σ) :
    Setting σ where
  key
  set v draft := (readAll settings defaults v).map (set · draft)

end Setting

def Server.settings : List (Setting Server) :=
  [.text "host" fun x s => { s with host := x },
    .whole "port" 0 UInt16.size fun x s => { s with port := UInt16.ofNat x.toNat },
    .uint64 "max_body_size_kb" fun x s => { s with maxBodyKb := x }]

def Pool.settings : List (Setting Pool) :=
  [.uint64 "workers" fun x _ => ⟨x⟩]

def Costs.settings : List (Setting Costs) :=
  [.int64 "plus_ms" fun x s => { s with plus := x },
    .int64 "minus_ms" fun x s => { s with minus := x },
    .int64 "multiply_ms" fun x s => { s with multiply := x },
    .int64 "divide_ms" fun x s => { s with divide := x }]

def Storage.settings : List (Setting Storage) :=
  [.text "snapshot_path" fun x _ => ⟨some x⟩]

def settings : List (Setting Settings) :=
  [.part "server" Server.settings .default fun x s => { s with server := x },
    .part "pool" Pool.settings .default fun x s => { s with pool := x },
    .part "costs" Costs.settings .default fun x s => { s with costs := x },
    .part "store" Storage.settings .default fun x s => { s with store := x }]

def ofToml (document : Toml) : Option Settings :=
  Setting.readAll settings default document

def ofDocument (text : String) : Option Settings :=
  (Toml.read text).bind ofToml

inductive LoadFault where
  | unreadable (path : String)
  | malformed (path : String)
  deriving DecidableEq, Repr

def LoadFault.message : LoadFault → String
  | unreadable path => "Failed to read '" ++ path ++ "'"
  | malformed path => "Failed to parse configuration file '" ++ path ++ "'"

/-- The settings of a file; a missing one stands for the defaults. -/
def load (path : String) : File → Except LoadFault Settings
  | .error .missing => .ok default
  | .error _ => .error (.unreadable path)
  | .ok content =>
    match String.fromUTF8? content with
    | none => .error (.unreadable path)
    | some text =>
      match ofDocument text with
      | none => .error (.malformed path)
      | some s => .ok s

/-! ### Writing -/

def Server.entries (s : Server) : List (String × Toml.Plain) :=
  [("host", .text s.host), ("port", .whole s.port.toNat),
    ("max_body_size_kb", .whole s.maxBodyKb.toNat)]

def Pool.entries (s : Pool) : List (String × Toml.Plain) :=
  [("workers", .whole s.workers.toNat)]

def Costs.entries (s : Costs) : List (String × Toml.Plain) :=
  [("plus_ms", .whole s.plus.toInt), ("minus_ms", .whole s.minus.toInt),
    ("multiply_ms", .whole s.multiply.toInt), ("divide_ms", .whole s.divide.toInt)]

/-- Without a path there is nothing to write. -/
def Storage.entries (s : Storage) : List (String × Toml.Plain) :=
  s.snapshotPath.toList.map fun path => ("snapshot_path", .text path)

def sections (s : Settings) : List Toml.Section :=
  [⟨"server", s.server.entries⟩, ⟨"pool", s.pool.entries⟩, ⟨"costs", s.costs.entries⟩,
    ⟨"store", s.store.entries⟩]

/-- The document of the settings, if every number can be written. -/
def document? (s : Settings) : Option String :=
  Toml.write? s.sections

end Reckoner.Settings
