import Reckoner.Api.MediaType
import Reckoner.Api.Url
import Reckoner.Json.Decode
import Reckoner.Api.Failure

/-!
# Requests

A request names a method and a target and may carry a body. A body is only read if it is declared
as JSON and is not too large.
-/

namespace Reckoner.Api

structure Request where
  method : String
  target : Target
  contentType : Option String
  /-- Whether the length of the body is told in advance. -/
  declaresLength : Bool
  body : String

structure Response where
  status : Nat
  body : String
  deriving DecidableEq, Repr

namespace Request

def isJson (r : Request) : Bool :=
  (r.contentType.bind MediaType.read?).any MediaType.isJson

/-- The most bytes that are ever collected of a body. -/
def bufferLimit : Nat :=
  2 * 1024 * 1024

def readBody (r : Request) (limit : Nat) (read : Json.Read α) : Except Failure α :=
  if !r.isJson then
    .error (.validation "Expected request with `Content-Type: application/json`")
  else if min limit bufferLimit < r.body.utf8ByteSize then
    .error (.validation "Failed to buffer the request body")
  else match Json.decode read r.body with
    | .ok a => .ok a
    | .error .malformed => .error (.validation "Failed to parse the request body as JSON")
    | .error .mismatched =>
      .error (.validation "Failed to deserialize the JSON body into the target type")

end Request

namespace Response

def json (status : Nat) (v : Json) : Response :=
  ⟨status, v.compact⟩

def ofFailure (f : Failure) : Response :=
  json f.status f.toJson

end Response

inductive Route where
  | calculations
  | latest
  /-- One calculation, by the text that stands for its number. -/
  | calculation (id : List Char)
  | configuration
  | resources
  | health
  deriving DecidableEq, Repr

def Route.ofPath? (path : List Char) : Option Route :=
  let single := "/expressions/".toList
  if path = "/expressions".toList then some .calculations
  else if path = "/expressions/latest".toList then some .latest
  else if path = "/configuration".toList then some .configuration
  else if path = "/computing-resources".toList then some .resources
  else if path = "/health".toList then some .health
  else if single.isPrefixOf path then
    let id := path.drop single.length
    if id.isEmpty || id.contains '/' then none else some (.calculation id)
  else none

end Reckoner.Api
