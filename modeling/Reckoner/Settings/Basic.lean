import Reckoner.CostTable
import Reckoner.Decimal.Whole

/-!
# Settings

What the program is told about its server, its pool, the costs of the operators and its store.
Every setting has a default, and three of them give way to environment variables.
-/

namespace Reckoner

namespace Settings

structure Server where
  host : String
  port : UInt16
  /-- The largest request body, in units of 1024 bytes. -/
  maxBodyKb : UInt64
  deriving DecidableEq, Repr

structure Pool where
  workers : UInt64
  deriving DecidableEq, Repr

/-- Milliseconds for every operator. -/
structure Costs where
  plus : Int64
  minus : Int64
  multiply : Int64
  divide : Int64
  deriving DecidableEq, Repr

structure Storage where
  snapshotPath : Option String
  deriving DecidableEq, Repr

def Server.default : Server :=
  ⟨"127.0.0.1", 8080, 64⟩

def Pool.default : Pool :=
  ⟨10⟩

def Costs.default : Costs :=
  ⟨1000, 1000, 1000, 1000⟩

def Storage.default : Storage :=
  ⟨none⟩

end Settings

structure Settings where
  server : Settings.Server
  pool : Settings.Pool
  costs : Settings.Costs
  store : Settings.Storage
  deriving DecidableEq, Repr

namespace Settings

def default : Settings :=
  ⟨.default, .default, .default, .default⟩

instance : Inhabited Settings := ⟨default⟩

/-- The largest request body in bytes, if a word holds the number. -/
def maxBodyBytes (s : Settings) : Except Error Nat :=
  let bytes := s.server.maxBodyKb.toNat * 1024
  if bytes < UInt64.size then .ok bytes
  else .error (.configuration "server.max_body_size_kb" "limit does not fit in memory addresses")

def costTable (s : Settings) : Except Error CostTable :=
  CostTable.ofMillis s.costs.plus s.costs.minus s.costs.multiply s.costs.divide

/-- The first setting in order that cannot be used is blamed. -/
def validate (s : Settings) : Except Error Unit := do
  if s.pool.workers = 0 then
    throw (.configuration "pool.workers" "at least one worker is required")
  discard s.maxBodyBytes
  discard s.costTable

/-- The number of workers and the costs that a service starts with. -/
def serviceStart (s : Settings) : Except Error (Nat × CostTable) := do
  s.validate
  return (s.pool.workers.toNat, ← s.costTable)

def bindAddress (s : Settings) : String :=
  s.server.host ++ ":" ++ toString s.server.port.toNat

/-! ### The environment -/

structure Environment where
  path : Option String
  host : Option String
  port : Option String
  workers : Option String
  deriving DecidableEq, Repr

def Environment.ofVariables (get : String → Option String) : Environment where
  path := get "ABACUS_CONFIG_PATH"
  host := get "ABACUS_HOST"
  port := get "ABACUS_PORT"
  workers := get "ABACUS_WORKERS"

/-- A variable that is no number below the bound does not count. -/
def readVariable (bound : Nat) (text : Option String) : Option Nat :=
  text.bind fun text => (Decimal.Whole.read bound text.toList).toOption

def overriddenBy (s : Settings) (env : Environment) : Settings where
  server := { s.server with
    host := env.host.getD s.server.host
    port := ((readVariable UInt16.size env.port).map UInt16.ofNat).getD s.server.port }
  pool :=
    { workers := ((readVariable UInt64.size env.workers).map UInt64.ofNat).getD s.pool.workers }
  costs := s.costs
  store := s.store

/-- The settings file: the one asked for, or the one of the environment, or the usual one. -/
def filePath (asked : Option String) (env : Environment) : String :=
  (asked <|> env.path).getD "abacus.toml"

end Settings

end Reckoner
