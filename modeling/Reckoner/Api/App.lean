import Reckoner.Api.Request
import Reckoner.Service.Schedule
import Reckoner.Settings.Basic
import Reckoner.Store.Snapshot

/-!
# The application

A service behind its routes. A table that the store remembers comes before the configured one, and
from the start on the store remembers the table in force.
-/

namespace Reckoner.Api

structure App where
  service : Service
  /-- The largest request body in bytes. -/
  bodyLimit : Nat

namespace App

def start (settings : Settings) (store : Store) : Except Error App := do
  let (workers, configured) ← settings.serviceStart
  let limit ← settings.maxBodyBytes
  let table := store.costs.getD configured
  let service ← Service.start workers table (store.recordCosts table)
  return ⟨service, limit⟩

/-- The start of the application, and the store as the start leaves it. -/
def startWith (settings : Settings) (store : Store) : Except Error App × Store :=
  match settings.serviceStart with
  | .error e => (.error e, store)
  | .ok (workers, configured) =>
    match settings.maxBodyBytes with
    | .error e => (.error e, store)
    | .ok limit =>
      let table := store.costs.getD configured
      let store := store.recordCosts table
      match Service.start workers table store with
      | .error e => (.error e, store)
      | .ok service => (.ok ⟨service, limit⟩, store)

theorem fst_startWith (settings : Settings) (store : Store) :
    (startWith settings store).1 = start settings store := by
  unfold startWith start
  cases settings.serviceStart with
  | error e => rfl
  | ok r =>
    cases settings.maxBodyBytes with
    | error e => rfl
    | ok limit =>
      simp only [bind, Except.bind]
      split <;> simp [*, pure, Except.pure]

/-- Hands over again what the store holds unfinished, as after a restart. -/
def resume (k : Collaborators) (app : App) : Except Error Nat × App :=
  let (reply, service, _) := app.service.call k none (.resume app.service.store.unfinished 0)
  let app := { app with service }
  match reply with
  | some (.resumed count) => (.ok count, app)
  | some (.refused e) => (.error e, app)
  | _ => (.error .poolUnavailable, app)

/-! ### Replacing the costs -/

/-- A request to replace the costs goes through two steps, between which others may come. -/
inductive Update where
  | asked (plus minus multiply divide : Int64)
  /-- In force, but not yet remembered. -/
  | applied (table : CostTable)
  | answered (outcome : Except Error CostTable)

def Update.step (s : Service) : Update → Service × Update
  | asked plus minus multiply divide =>
    match s.setCosts plus minus multiply divide with
    | .ok (table, s) => (s, .applied table)
    | .error e => (s, .answered (.error e))
  | applied table => ({ s with store := s.store.recordCosts table }, .answered (.ok table))
  | answered outcome => (s, .answered outcome)

def replaceCosts (s : Service) (plus minus multiply divide : Int64) :
    Except Error CostTable × Service :=
  match s.setCosts plus minus multiply divide with
  | .ok (table, s) => (.ok table, { s with store := s.store.recordCosts table })
  | .error e => (.error e, s)

/-- Replacing the costs is both steps of an update without anything in between. -/
theorem step_step_asked (s : Service) (plus minus multiply divide : Int64) :
    let u := Update.step s (.asked plus minus multiply divide)
    Update.step u.1 u.2 =
      ((replaceCosts s plus minus multiply divide).2,
        .answered (replaceCosts s plus minus multiply divide).1) := by
  simp only [Update.step, replaceCosts]
  cases s.setCosts plus minus multiply divide <;> rfl

/-- The four numbers of an update, in milliseconds. -/
structure CostsDraft where
  plus : Int64
  minus : Int64
  multiply : Int64
  divide : Int64

def CostsDraft.read : Json.Read CostsDraft :=
  Json.RecordField.readRecord
    [.required "plus" Json.Reading.asInt64 fun x d => { d with plus := x },
      .required "minus" Json.Reading.asInt64 fun x d => { d with minus := x },
      .required "multiply" Json.Reading.asInt64 fun x d => { d with multiply := x },
      .required "divide" Json.Reading.asInt64 fun x d => { d with divide := x }]
    ⟨0, 0, 0, 0⟩

/-! ### Routes -/

def readSubmission : Json.Read String :=
  Json.RecordField.readRecord [.required "expression" Json.Reading.asText fun x _ => x] ""

def submit (k : Collaborators) (app : App) (r : Request) : Response × App :=
  match r.readBody app.bodyLimit readSubmission with
  | .error f => (.ofFailure f, app)
  | .ok text =>
    let (reply, service, _) := app.service.call k none (.submit text)
    let app := { app with service }
    match reply with
    | some (.submitted c) => (.json 202 c.view, app)
    | some (.refused e) => (.ofFailure (.ofError e), app)
    | _ => (.ofFailure (.internal "background task failed"), app)

/-- The fragment of a number to look for; a query names it at most once. -/
def searchFragment? (query : List Char) : Option String :=
  match (queryPairs query).filter fun p => p.1 = "id" with
  | [] => some ""
  | [(_, fragment)] => some fragment
  | _ => none

def viewsOf (cs : List Calculation) : Json :=
  .list (cs.map Calculation.view)

def search (app : App) (query : List Char) : Response :=
  match searchFragment? query with
  | some fragment => .json 200 (viewsOf (app.service.store.search fragment))
  | none => ⟨400, "Failed to deserialize query string"⟩

def latestLimit : Nat :=
  10

def find (app : App) (id : List Char) : Response :=
  match pathText? id with
  | none => ⟨400, "Invalid URL: Invalid UTF-8 in `id`"⟩
  | some text =>
    let text := String.ofList text
    match Calculation.readId text with
    | .error _ => .ofFailure (.validation ("invalid expression id '" ++ text ++ "'"))
    | .ok id =>
      match app.service.store.find? id with
      | some c => .json 200 c.view
      | none => .ofFailure (.notFound ("expression " ++ toString id.toNat))

def configure (app : App) (r : Request) : Response × App :=
  match r.readBody app.bodyLimit CostsDraft.read with
  | .error f => (.ofFailure f, app)
  | .ok d =>
    match replaceCosts app.service d.plus d.minus d.multiply d.divide with
    | (.ok table, service) => (.json 200 table.toJson, { app with service })
    | (.error e, service) => (.ofFailure (.ofError e), { app with service })

def resources (app : App) : Response :=
  let views := app.service.views
  .json 200 (.object [("total", .ofNat views.length),
    ("busy", .ofNat (views.filter WorkerView.isBusy).length),
    ("workers", .list (views.map WorkerView.toJson))])

def health (app : App) (uptime : Nat) : Response :=
  .json 200 (.object [("status", .text (if app.service.isOpen then "ok" else "stopping")),
    ("workers", .ofNat app.service.workers.length), ("uptime_seconds", .ofNat uptime)])

def dispatch (k : Collaborators) (uptime : Nat) (app : App) (r : Request) : Route →
    String → Response × App
  | .calculations, "GET" => (app.search r.target.query, app)
  | .calculations, "POST" => app.submit k r
  | .latest, "GET" => (.json 200 (viewsOf (app.service.store.latest latestLimit)), app)
  | .calculation id, "GET" => (app.find id, app)
  | .configuration, "GET" => (.json 200 app.service.table.toJson, app)
  | .configuration, "PUT" => app.configure r
  | .resources, "GET" => (app.resources, app)
  | .health, "GET" => (app.health uptime, app)
  | _, _ => (⟨405, ""⟩, app)

/-- The answer to a request, so many seconds after the start. What HEAD asks for is answered like
GET, without the body. -/
def handle (k : Collaborators) (uptime : Nat) (app : App) (r : Request) : Response × App :=
  let headOnly := r.method = "HEAD"
  let (response, app) :=
    if r.declaresLength && app.bodyLimit < r.body.utf8ByteSize then
      (⟨413, "length limit exceeded"⟩, app)
    else match Route.ofPath? r.target.path with
      | none => (⟨404, ""⟩, app)
      | some route => app.dispatch k uptime r route (if headOnly then "GET" else r.method)
  (if headOnly then { response with body := "" } else response, app)

end App

end Reckoner.Api
