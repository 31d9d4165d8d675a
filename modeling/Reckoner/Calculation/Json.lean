import Reckoner.Calculation.Basic
import Reckoner.Instant.Text
import Reckoner.Json.Basic
import Reckoner.Json.Decode

/-!
# Calculations in JSON

The stored form of a calculation leaves out its formula; the shown form names the status by its
label.
-/

namespace Reckoner

open Reckoner.Json (RecordField Read Reading Fault)

namespace Instant

def toJson (t : Instant) : Json :=
  .text t.text

def fromJson : Read Instant := fun v => do
  let text ← v.asText
  match Instant.read text with
  | some t => .ok t
  | none => .error .mismatched

end Instant

namespace Calculation

namespace Status

def tag : Status → String
  | created => "created"
  | queued => "queued"
  | calculating => "calculating"
  | done => "done"
  | failed _ => "failed"

def toJson : Status → Json
  | failed message => .object [("state", .text "failed"), ("message", .text message)]
  | status => .object [("state", .text status.tag)]

/-- The statuses by name; a failure has its message apart. -/
inductive Tag where
  | plain (status : Status)
  | failed

def tags : List (String × Tag) :=
  [("created", .plain created), ("queued", .plain queued), ("calculating", .plain calculating),
    ("done", .plain done), ("failed", .failed)]

/-- The status with the content of its record: a message for a failure, null for all others. -/
def withContent (tag : Tag) (v : Reading) : Except Fault Status :=
  match tag with
  | .failed => v.asText.map failed
  | .plain status => v.asNull.map fun _ => status

def withoutContent : Tag → Except Fault Status
  | .plain status => .ok status
  | .failed => .error .mismatched

/-- The record with its name and its content as far as they have come, in either order. -/
structure Draft where
  tag : Option Tag
  content : Option Reading

def fields : List (RecordField Draft) :=
  [.required "state" (Reading.asName tags) fun t d => { d with tag := some t },
    .optional "message" (fun v => if v.isIntact then .ok v else .error .malformed)
      fun v d => { d with content := some v }]

def finish (d : Draft) : Except Fault Status :=
  match d.tag, d.content with
  | none, _ => .error .mismatched
  | some tag, none => withoutContent tag
  | some tag, some v => withContent tag v

def read : Read Status := fun v => do
  finish (← RecordField.readRecord fields ⟨none, none⟩ v)

end Status

/-- A calculation whose required fields have not all come yet. -/
structure Draft where
  id : Option Id
  text : Option String
  result : Option Float
  status : Option Status
  createdAt : Option Instant
  finishedAt : Option Instant

namespace Draft

def empty : Draft :=
  ⟨none, none, none, none, none, none⟩

def fields : List (RecordField Draft) :=
  [.optional "id" (Reading.asOption Reading.asUInt64) fun x d => { d with id := x },
    .required "text" Reading.asText fun x d => { d with text := some x },
    .optional "result" (Reading.asOption Reading.asFloat) fun x d => { d with result := x },
    .required "status" Status.read fun x d => { d with status := some x },
    .required "created_at" Instant.fromJson fun x d => { d with createdAt := some x },
    .optional "finished_at" (Reading.asOption Instant.fromJson)
      fun x d => { d with finishedAt := x }]

def finish (d : Draft) : Except Fault Calculation :=
  match d.text, d.status, d.createdAt with
  | some text, some status, some createdAt =>
    .ok ⟨d.id, text, none, d.result, status, createdAt, d.finishedAt⟩
  | _, _, _ => .error .mismatched

end Draft

def idToJson (id : Id) : Json :=
  .ofNat id.toNat

def toJson (c : Calculation) : Json :=
  .object [("id", .ofOption idToJson c.id), ("text", .text c.text),
    ("result", .ofOption .real c.result), ("status", c.status.toJson),
    ("created_at", c.createdAt.toJson), ("finished_at", .ofOption Instant.toJson c.finishedAt)]

def read : Read Calculation := fun v => do
  (← RecordField.readRecord Draft.fields .empty v).finish

def view (c : Calculation) : Json :=
  let present (name : String) (v : Option Json) := v.toList.map (name, ·)
  .object (present "id" (c.id.map idToJson)
    ++ [("expression", .text c.text), ("status", .text c.status.label),
      ("result", .ofOption .real c.result)]
    ++ present "error" (c.errorMessage.map .text)
    ++ [("created_at", c.createdAt.toJson),
      ("finished_at", .ofOption Instant.toJson c.finishedAt)])

end Calculation

end Reckoner
