import Mathlib.Algebra.Order.Group.Multiset
import Reckoner.Proofs.Formula.Charging
import Reckoner.Proofs.Service.Steps

/-!
# Calculations under way

A flight is a calculation on its way through the service, with the phase that it has reached. The
workers and the callers of a service hold its flights between them. `Advance` says how a single
flight goes on, and what the listener, the log of pauses and the rendezvous see of it; `Move` what
an action does to everything that a service accounts for, whoever acts.
-/

namespace Reckoner.Service

inductive Phase where
  /-- Found pending after a restart, nothing told of it since. -/
  | pending
  /-- New, with its text unread. -/
  | fresh
  /-- The text is a formula, but the calculation is not queued. -/
  | parsed
  | queued
  | taken
  | calculating (ahead : Outlook)
  | aborted

structure Flight where
  id : Calculation.Id
  text : String
  phase : Phase

namespace Flight

def of (c : Calculation) (phase : Phase) : Flight :=
  ⟨c.id.getD 0, c.text, phase⟩

end Flight

def pendingFlights (rest : List Calculation) : List Flight :=
  (rest.filter isResumable).map (Flight.of · .pending)

def Then.flights : Then → List Flight
  | .resume rest _ => pendingFlights rest
  | .submitted | .accepted => []

def Caller.flights : Caller → List Flight
  | .parse c => [.of c .fresh]
  | .reserve c _ | .reject c => [.of c .parsed]
  | .resume rest _ => pendingFlights rest
  | .reopen c rest _ => .of c .pending :: pendingFlights rest
  | .announce c _ next => .of c .parsed :: next.flights
  | .send c next | .offer c next => .of c .queued :: next.flights
  | _ => []

def Caller.entering : Caller → List String
  | .submit text => [text]
  | _ => []

def Stage.flights : Stage → List Flight
  | .received c | .begun c => [.of c .taken]
  | .evaluating c e | .pausing c e => [.of c (.calculating e.outlook)]
  | .concluding c outcome => [.of c (.calculating ([], outcome))]
  | .recovering c => [.of c .aborted]
  | .waiting | .releasing | .exited | .lost => []

/-! ### Advances -/

/-- What the others see of an action. -/
inductive Effect where
  | silent
  | told (occasion : Occasion) (c : Calculation)
  | charged (c : Charge)
  | received (c : Calculation) (worker : Nat)

def verdict : Except Error Float → Calculation.Status × Option Float
  | .ok x => (.done, some x)
  | .error e => (.failed e.message, none)

structure Shows (c : Calculation) (id : Calculation.Id) (text : String)
    (state : Calculation.Status × Option Float) : Prop where
  id : c.id = some id
  text : c.text = text
  status : c.status = state.1
  result : c.result = state.2

/-- How a flight goes on: to another phase, or to its end. `panics` stands for a pacer that may
panic, and `rejects` for an intake that was closed too early. -/
inductive Advance (panics rejects : Prop) (id : Calculation.Id) (text : String) :
    Phase → Effect → Option Phase → Prop where
  | reopened : Advance panics rejects id text .pending .silent (some .parsed)
  | parsed : Advance panics rejects id text .fresh .silent (some .parsed)
  | unparsed {p : Phase} {e : Error} {c : Calculation} (early : p = .pending ∨ p = .fresh)
      (wrong : Formula.parse text = .error e) (shows : Shows c id text (verdict (.error e))) :
      Advance panics rejects id text p (.told .completed c) none
  | rejected {c : Calculation} (late : rejects)
      (shows : Shows c id text (verdict (.error .poolUnavailable))) :
      Advance panics rejects id text .parsed (.told .completed c) none
  | queued {c : Calculation} (named : c.id = some id) (same : c.text = text)
      (status : c.status = .queued) :
      Advance panics rejects id text .parsed (.told .changed c) (some .queued)
  | taken {c : Calculation} {worker : Nat} {f : Formula} (named : c.id = some id)
      (same : c.text = text) (right : Formula.parse text = .ok f) :
      Advance panics rejects id text .queued (.received c worker) (some .taken)
  | begun {c : Calculation} {f : Formula} (named : c.id = some id) (same : c.text = text)
      (status : c.status = .calculating) (right : Formula.parse text = .ok f) :
      Advance panics rejects id text .taken (.told .changed c) (some (.calculating f.trace))
  | charged {c : Charge} {ahead : Outlook} :
      Advance panics rejects id text (.calculating (c.op :: ahead.1, ahead.2)) (.charged c)
        (some (.calculating ahead))
  | aborted {c : Charge} {ahead : Outlook} (panicking : panics) :
      Advance panics rejects id text (.calculating (c.op :: ahead.1, ahead.2)) (.charged c)
        (some .aborted)
  | concluded {c : Calculation} {outcome : Except Error Float}
      (shows : Shows c id text (verdict outcome)) :
      Advance panics rejects id text (.calculating ([], outcome)) (.told .completed c) none
  | recovered {c : Calculation} (shows : Shows c id text (.failed panicMessage, none)) :
      Advance panics rejects id text .aborted (.told .completed c) none

/-! ### Moves -/

structure Ledger where
  /-- The texts of which no calculation was made yet. -/
  entering : Multiset String
  flights : Multiset Flight
  store : Store
  /-- Latest first. -/
  notices : List Notice
  /-- Latest first. -/
  charges : List Charge
  /-- Calculations and the workers that took them, earliest first. -/
  received : List (Calculation × Nat)

def Effect.apply : Effect → Ledger → Ledger
  | .silent, l => l
  | .told occasion c, l =>
    { l with store := l.store.keep c, notices := ⟨occasion, c⟩ :: l.notices }
  | .charged c, l => { l with charges := c :: l.charges }
  | .received c worker, l => { l with received := l.received ++ [(c, worker)] }

/-- The flight in its next phase, if there is one. -/
def onward (id : Calculation.Id) (text : String) (next : Option Phase) : List Flight :=
  (next.map fun p => ⟨id, text, p⟩).toList

inductive Move (panics rejects : Prop) : Ledger → Ledger → Prop where
  | rest (l : Ledger) : Move panics rejects l l
  | created (l : Ledger) {others : Multiset String} {c : Calculation}
      (entering : l.entering = {c.text} + others)
      (shows : Shows c l.store.nextId c.text (.created, none)) :
      Move panics rejects l
        { l with
          entering := others
          flights := {⟨l.store.nextId, c.text, .fresh⟩} + l.flights
          store := (l.store.create c).2
          notices := ⟨.created, c⟩ :: l.notices }
  | forsaken (l : Ledger) {gone others : Multiset Flight} (split : l.flights = gone + others)
      (pending : ∀ f ∈ gone, f.phase = .pending) :
      Move panics rejects l { l with flights := others }
  | advanced (l : Ledger) {others : Multiset Flight} {id : Calculation.Id} {text : String}
      {p : Phase} {e : Effect} {next : Option Phase}
      (split : l.flights = {⟨id, text, p⟩} + others)
      (advance : Advance panics rejects id text p e next) :
      Move panics rejects l (e.apply { l with flights := onward id text next + others })

/-- The account of a service in which these texts are entering and these flights under way. -/
def account (s : Service) (entering : Multiset String) (flights : Multiset Flight)
    (received : List (Calculation × Nat)) : Ledger :=
  ⟨entering, flights, s.store, s.notices, s.charges, received⟩

/-- The account of a service, with texts that are still to be submitted and calculations that are
still to be resumed. -/
def ledger (s : Service) (upcoming : List String) (waiting : List Calculation)
    (received : List (Calculation × Nat)) : Ledger :=
  s.account (s.callers.flatMap Caller.entering + upcoming)
    (s.workers.flatMap (fun w => w.stage.flights) + s.callers.flatMap Caller.flights
      + pendingFlights waiting) received

end Reckoner.Service
