import Reckoner.Service.Basic

/-!
# Steps of the service

Everything that happens in a service is a sequence of actions, each the next step of one worker or
one caller, or the moment in which a worker takes a calculation from a caller. `Runs` relates two
states if some sequence of actions leads from one to the other, in whatever order the workers and
the callers come to act.
-/

namespace Reckoner

namespace Service

/-- The failure of a calculation during which a collaborator panicked. -/
def panicMessage : String :=
  "worker panicked during evaluation"

/-- The time, and the service with one more reading of its clock. -/
def now (k : Collaborators) (s : Service) : Instant × Service :=
  (k.clock s.readings, { s with readings := s.readings + 1 })

/-- Tells the listener of a new calculation, which gets its number. -/
def introduce (k : Collaborators) (s : Service) (c : Calculation) :
    Calculation × Service × Bool :=
  let (id, issued) := s.store.issue
  let named := { c with id := some id }
  let notice : Notice := ⟨.created, named⟩
  let reaction := k.listener s.notices.length notice
  let store := if reaction.keeps then (s.store.create c).2 else issued
  (named, { s with store, notices := notice :: s.notices }, reaction.panics)

/-- Tells the listener of a calculation; the answer says whether it panicked. -/
def tell (k : Collaborators) (s : Service) (occasion : Occasion) (c : Calculation) :
    Service × Bool :=
  let notice : Notice := ⟨occasion, c⟩
  let reaction := k.listener s.notices.length notice
  let store := if reaction.keeps then s.store.keep c else s.store
  ({ s with store, notices := notice :: s.notices }, reaction.panics)

/-- Begins a pause: it is recorded, then the pacer reacts. -/
def beginPause (k : Collaborators) (s : Service) (c : Charge) : Service × Bool :=
  let charges := c :: s.charges
  let reaction := k.pacer charges.length
  ({ s with charges, table := reaction.table.getD s.table }, reaction.panics)

/-! ### Workers -/

/-- What a worker does with a calculation that it received. -/
def beginWork (k : Collaborators) (s : Service) (c : Calculation) : Service × Stage :=
  match c.beginCalculating with
  | .error _ => (s, .releasing)
  | .ok c =>
    match s.tell k .changed c with
    | (s, true) => (s, .recovering c)
    | (s, false) =>
      match c.plan with
      | some plan => (s, .evaluating c (.start plan))
      | none => (s, .concluding c (.error (.parse 0 "expression was queued without a plan")))

/-- The end of an evaluation: the calculation is done or failed. -/
def conclude (k : Collaborators) (s : Service) (c : Calculation)
    (outcome : Except Error Float) : Service × Stage :=
  let (t, s) := s.now k
  let finished := match outcome with
    | .ok x => c.complete x t
    | .error e => c.fail e.message t
  match finished with
  | .error _ => (s, .releasing)
  | .ok c =>
    match s.tell k .completed c with
    | (s, true) => (s, .recovering c)
    | (s, false) => (s, .releasing)

/-- After a panic: a calculation that has not ended fails. Nobody catches a second panic. -/
def recover (k : Collaborators) (s : Service) (c : Calculation) : Service × Stage :=
  if c.status = .calculating then
    let (t, s) := s.now k
    match c.fail panicMessage t with
    | .error _ => (s, .releasing)
    | .ok c =>
      match s.tell k .completed c with
      | (s, true) => (s, .lost)
      | (s, false) => (s, .releasing)
  else (s, .releasing)

def evaluate (k : Collaborators) (s : Service) (c : Calculation) (e : Evaluation) :
    Service × Stage :=
  match e.step s.table with
  | .running e => (s, .evaluating c e)
  | .finished outcome => (s, .concluding c outcome)
  | .pausing charge e =>
    match s.beginPause k charge with
    | (s, true) => (s, .recovering c)
    | (s, false) => (s, .pausing c e)

/-- The next step of a worker by itself, if it has one. -/
def stepWorker (k : Collaborators) (s : Service) (w : Worker) : Option (Service × Worker) :=
  let goes (r : Service × Stage) : Option (Service × Worker) :=
    some (r.1, { w with stage := r.2 })
  match w.stage with
  | .waiting => if !s.isOpen && !s.hasHandoff then goes (s, .exited) else none
  | .received c => some (s, ⟨.begun c, { w.view with state := .busy, current := c.id }⟩)
  | .begun c => goes (s.beginWork k c)
  | .evaluating c e => goes (s.evaluate k c e)
  | .pausing c e => goes (s, .evaluating c e)
  | .concluding c outcome => goes (s.conclude k c outcome)
  | .recovering c => goes (s.recover k c)
  | .releasing => some (s, ⟨.waiting, { w.view with state := .idle, current := none }⟩)
  | .exited | .lost => none

/-! ### Callers -/

/-- A calculation whose text does not parse fails at once. -/
def failParse (k : Collaborators) (s : Service) (c : Calculation) (e : Error)
    (next : Calculation → Caller) : Service × Caller :=
  let (t, s) := s.now k
  match c.fail e.message t with
  | .error e => (s, .done (.refused e))
  | .ok c =>
    match s.tell k .completed c with
    | (s, true) => (s, .done .unwound)
    | (s, false) => (s, next c)

def submit (k : Collaborators) (s : Service) (text : String) : Service × Caller :=
  let (t, s) := s.now k
  match s.introduce k (.new text t) with
  | (_, s, true) => (s, .done .unwound)
  | (c, s, false) => (s, .parse c)

def parse (k : Collaborators) (s : Service) (c : Calculation) : Service × Caller :=
  match Formula.parse c.text with
  | .ok plan => (s, .reserve c plan)
  | .error e => s.failParse k c e fun c => .done (.submitted c)

/-- The calculation fails before it was ever queued. -/
def reject (k : Collaborators) (s : Service) (c : Calculation) : Service × Caller :=
  s.failParse k c .poolUnavailable fun _ => .done (.refused .poolUnavailable)

def resume (s : Service) : List Calculation → Nat → Caller
  | [], count => .done (.resumed count)
  | c :: rest, count =>
    if c.id.isNone || !c.isPending then .resume rest count
    else if s.isOpen then .reopen c rest count
    else .done (.refused .poolUnavailable)

def reopen (k : Collaborators) (s : Service) (c : Calculation) (rest : List Calculation)
    (count : Nat) : Service × Caller :=
  match c.reopen with
  | .error e => (s, .done (.refused e))
  | .ok c =>
    match Formula.parse c.text with
    | .ok plan => (s, .announce c plan (.resume rest count))
    | .error e => s.failParse k c e fun _ => .resume rest count

def announce (k : Collaborators) (s : Service) (c : Calculation) (plan : Formula) (next : Then) :
    Service × Caller :=
  match c.queue plan with
  | .error e => (s, .done (.refused e))
  | .ok c =>
    match s.tell k .changed c with
    | (s, true) => (s, .done .unwound)
    | (s, false) => (s, .send c next)

/-- Only queued calculations are handed over. -/
def send (c : Calculation) (next : Then) : Caller :=
  if c.status = .queued then .offer c next
  else .done (.refused (.illegal c.status "calculating"))

def handedOver (c : Calculation) : Then → Caller
  | .submitted => .done (.submitted c)
  | .accepted => .done .accepted
  | .resume rest count => .resume rest (count + 1)

/-- The next step of a caller by itself, if it has one. -/
def stepCaller (k : Collaborators) (s : Service) : Caller → Option (Service × Caller)
  | .submit text => some (s.submit k text)
  | .parse c => some (s.parse k c)
  | .reserve c plan => some (s, if s.isOpen then .announce c plan .submitted else .reject c)
  | .reject c => some (s.reject k c)
  | .resume rest count => some (s, s.resume rest count)
  | .reopen c rest count => some (s.reopen k c rest count)
  | .announce c plan next => some (s.announce k c plan next)
  | .send c next => some (s, send c next)
  | .offer _ _ =>
    if s.workers.all Worker.isGone then some (s, .done (.refused .poolUnavailable)) else none
  | .request c =>
    some (s, if s.isOpen then .send c .accepted else .done (.refused .poolUnavailable))
  | .acquire => some (s, if s.isOpen then .hold else .done (.refused .poolUnavailable))
  | .hold => none
  | .close => some (if s.isOpen then ({ s with isOpen := false }, .join) else (s, .done .stopped))
  | .join => if s.workers.all Worker.isGone then some (s, .done .stopped) else none
  | .done _ => none

/-! ### Actions -/

inductive Action where
  | worker (index : Nat)
  | caller (index : Nat)
  /-- A waiting worker takes the calculation of a caller at the rendezvous. -/
  | handOver (caller worker : Nat)
  /-- A caller uses the handoff that it holds. -/
  | use (caller : Nat) (c : Calculation)
  /-- A caller gives up the handoff that it holds. -/
  | drop (caller : Nat)
  | call (c : Caller)
  | setCosts (table : CostTable)

def step (k : Collaborators) (s : Service) : Action → Option Service
  | .worker i => do
    let w ← s.workers[i]?
    let (s, w) ← s.stepWorker k w
    return { s with workers := s.workers.set i w }
  | .caller i => do
    let c ← s.callers[i]?
    let (s, c) ← s.stepCaller k c
    return { s with callers := s.callers.set i c }
  | .handOver i j =>
    match s.callers[i]?, s.workers[j]? with
    | some (.offer c next), some ⟨.waiting, view⟩ =>
      some { s with
        callers := s.callers.set i (handedOver c next)
        workers := s.workers.set j ⟨.received c, view⟩ }
    | _, _ => none
  | .use i c =>
    match s.callers[i]? with
    | some .hold => some { s with callers := s.callers.set i (.send c .accepted) }
    | _ => none
  | .drop i =>
    match s.callers[i]? with
    | some .hold => some { s with callers := s.callers.set i (.done .dropped) }
    | _ => none
  | .call c => some { s with callers := s.callers ++ [c] }
  | .setCosts table => some { s with table }

/-- A sequence of actions, each possible when its turn comes. -/
def run (k : Collaborators) (s : Service) (actions : List Action) : Option Service :=
  actions.foldlM (step k) s

theorem run_cons (k : Collaborators) (s : Service) (a : Action) (rest : List Action) :
    s.run k (a :: rest) = (s.step k a).bind fun t => t.run k rest :=
  rfl

theorem run_append (k : Collaborators) (s : Service) (first rest : List Action) :
    s.run k (first ++ rest) = (s.run k first).bind fun t => t.run k rest :=
  List.foldlM_append

def Runs (k : Collaborators) (s t : Service) : Prop :=
  ∃ actions, s.run k actions = some t

end Service

end Reckoner
