import Reckoner.Error
import Reckoner.Json.Basic

/-!
# Failures of requests

A request that is refused is answered with a status, a code and a message.
-/

namespace Reckoner.Api

inductive Failure where
  | validation (message : String)
  | notFound (resource : String)
  | unavailable (message : String)
  | internal (message : String)
  deriving DecidableEq, Repr

namespace Failure

def status : Failure → Nat
  | validation _ => 400
  | notFound _ => 404
  | unavailable _ => 503
  | internal _ => 500

def code : Failure → String
  | validation _ => "VALIDATION_ERROR"
  | notFound _ => "NOT_FOUND"
  | unavailable _ => "SERVICE_UNAVAILABLE"
  | internal _ => "INTERNAL_ERROR"

def message : Failure → String
  | validation m => "Validation error: " ++ m
  | notFound resource => "Resource not found: " ++ resource
  | unavailable m => "Service unavailable: " ++ m
  | internal m => "Internal server error: " ++ m

/-- What the client sends wrong is its own fault, a closed pool passes, all else is ours. -/
def ofError (e : Error) : Failure :=
  match e with
  | .parse .. | .divisionByZero | .configuration .. => validation e.message
  | .poolUnavailable => unavailable e.message
  | .transition .. | .storage _ => internal e.message

def toJson (f : Failure) : Json :=
  .object [("code", .text f.code), ("message", .text f.message)]

end Failure

end Reckoner.Api
