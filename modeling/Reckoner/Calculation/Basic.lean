import Reckoner.Decimal.Whole
import Reckoner.Formula.Basic
import Reckoner.Instant.Basic
import Reckoner.Text.Blank

/-!
# Calculations

A calculation is a submitted text with its way through the pool: created, queued with its formula,
calculating, and done with a result or failed with a message. A step that the status does not allow
is refused.
-/

namespace Reckoner

namespace Calculation

/-- The number under which a store keeps a calculation. -/
abbrev Id := UInt64

/-- The number that a text gives, blanks around it aside. -/
def readId (text : String) : Except Decimal.Whole.Fault Id :=
  (Decimal.Whole.read UInt64.size (Text.trimmed text.toList)).map UInt64.ofNat

end Calculation

structure Calculation where
  id : Option Calculation.Id
  text : String
  plan : Option Formula
  result : Option Float
  status : Calculation.Status
  createdAt : Instant
  finishedAt : Option Instant
  deriving Inhabited

namespace Calculation

def new (text : String) (now : Instant) : Calculation :=
  ⟨none, text, none, none, .created, now, none⟩

def isTerminal (c : Calculation) : Bool :=
  c.status.isTerminal

def isPending (c : Calculation) : Bool :=
  c.status.isPending

def errorMessage (c : Calculation) : Option String :=
  match c.status with
  | .failed message => some message
  | _ => none

/-- From created to queued, with the formula of the text. -/
def queue (c : Calculation) (plan : Formula) : Except Error Calculation :=
  if c.status = .created then .ok { c with plan := some plan, status := .queued }
  else .error (.illegal c.status "in queue")

def beginCalculating (c : Calculation) : Except Error Calculation :=
  if c.status = .queued then .ok { c with status := .calculating }
  else .error (.illegal c.status "calculating")

def complete (c : Calculation) (value : Float) (now : Instant) : Except Error Calculation :=
  if c.status = .calculating then
    .ok { c with result := some value, status := .done, finishedAt := some now }
  else .error (.illegal c.status "done")

/-- From created or calculating to failed; a queued calculation fails only in the hands of a
worker. -/
def fail (c : Calculation) (message : String) (now : Instant) : Except Error Calculation :=
  if c.status = .created ∨ c.status = .calculating then
    .ok { c with result := none, status := .failed message, finishedAt := some now }
  else .error (.illegal c.status "failed")

/-- A calculation found pending after a restart begins again. -/
def reopen (c : Calculation) : Except Error Calculation :=
  if c.isPending then .ok { c with plan := none, result := none, status := .created }
  else .error (.illegal c.status "created")

end Calculation

end Reckoner
