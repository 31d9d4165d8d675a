import Reckoner.Service.Step

/-!
# Steps of workers and callers

What the own step of a worker or a caller can be, if the listener passes everything on to the
store. `stepWorker_cases` and `stepCaller_cases` hold for a worker and a caller whose calculation is
in the status that its place asks for; `Stage.Sound` and `Caller.Sound` say which one that is.
`happens_of_step` says what an action of the whole service is made of, whoever listens.
-/

namespace Reckoner

/-- The listener passes everything on to the store and never panics. -/
def Collaborators.Forwards (k : Collaborators) : Prop :=
  ∀ n notice, k.listener n notice = ⟨true, false⟩

def Collaborators.Calm (k : Collaborators) : Prop :=
  ∀ n, (k.pacer n).panics = false

namespace Service

variable {k : Collaborators} {s t : Service}

/-! ### Actions -/

/-- What an action is made of. -/
inductive Happens (k : Collaborators) (s : Service) : Action → Service → Prop where
  | worker {i : Nat} {w w' : Worker} {t : Service} (here : s.workers[i]? = some w)
      (own : s.stepWorker k w = some (t, w')) :
      Happens k s (.worker i) { t with workers := t.workers.set i w' }
  | caller {i : Nat} {c c' : Caller} {t : Service} (here : s.callers[i]? = some c)
      (own : s.stepCaller k c = some (t, c')) :
      Happens k s (.caller i) { t with callers := t.callers.set i c' }
  | handedOver {i j : Nat} {c : Calculation} {next : Then} {view : WorkerView}
      (offering : s.callers[i]? = some (.offer c next))
      (waiting : s.workers[j]? = some ⟨.waiting, view⟩) :
      Happens k s (.handOver i j)
        { s with
          callers := s.callers.set i (handedOver c next)
          workers := s.workers.set j ⟨.received c, view⟩ }
  | used {i : Nat} {c : Calculation} (holding : s.callers[i]? = some .hold) :
      Happens k s (.use i c) { s with callers := s.callers.set i (.send c .accepted) }
  | dropped {i : Nat} (holding : s.callers[i]? = some .hold) :
      Happens k s (.drop i) { s with callers := s.callers.set i (.done .dropped) }
  | called {c : Caller} : Happens k s (.call c) { s with callers := s.callers ++ [c] }
  | repriced {table : CostTable} : Happens k s (.setCosts table) { s with table }

theorem happens_of_step {a : Action} (h : s.step k a = some t) : Happens k s a t := by
  cases a with
  | worker i =>
    simp only [step, Option.bind_eq_bind, Option.bind_eq_some_iff, Option.pure_def,
      Option.some.injEq] at h
    obtain ⟨w, here, ⟨u, w'⟩, own, rfl⟩ := h
    exact .worker here own
  | caller i =>
    simp only [step, Option.bind_eq_bind, Option.bind_eq_some_iff, Option.pure_def,
      Option.some.injEq] at h
    obtain ⟨c, here, ⟨u, c'⟩, own, rfl⟩ := h
    exact .caller here own
  | handOver i j =>
    simp only [step] at h
    split at h
    · rename_i offering waiting
      cases h
      exact .handedOver offering waiting
    · cases h
  | use i c | drop i =>
    simp only [step] at h
    split at h
    · rename_i holding
      cases h
      constructor
      exact holding
    · cases h
  | call c =>
    cases h
    exact .called
  | setCosts table =>
    cases h
    exact .repriced

/-! ### Telling -/

/-- The service when the store and the listener have heard of a calculation. -/
def heard (s : Service) (occasion : Occasion) (c : Calculation) : Service :=
  { s with store := s.store.keep c, notices := ⟨occasion, c⟩ :: s.notices }

theorem tell_eq (forwards : k.Forwards) (occasion : Occasion) (c : Calculation) :
    s.tell k occasion c = (s.heard occasion c, false) := by
  simp [tell, heard, forwards s.notices.length]

theorem introduce_eq (forwards : k.Forwards) (c : Calculation) :
    s.introduce k c =
      ({ c with id := some s.store.nextId },
        { s with
          store := (s.store.create c).2
          notices := ⟨.created, { c with id := some s.store.nextId }⟩ :: s.notices }, false) := by
  simp [introduce, forwards s.notices.length, Store.issue]

def failed (c : Calculation) (message : String) (time : Instant) : Calculation :=
  { c with result := none, status := .failed message, finishedAt := some time }

/-- The service after a reading of the clock and the end of a calculation. -/
def concludedWith (s : Service) (c : Calculation) : Service :=
  { s with readings := s.readings + 1 }.heard .completed c

theorem failParse_eq (forwards : k.Forwards) {c : Calculation} (created : c.status = .created)
    (e : Error) (next : Calculation → Caller) :
    s.failParse k c e next =
      (s.concludedWith (failed c e.message (k.clock s.readings)),
        next (failed c e.message (k.clock s.readings))) := by
  simp [failParse, now, Calculation.fail, created, tell_eq forwards, failed, concludedWith]

/-! ### Places and statuses -/

/-- Whether a resumed calculation is taken up at all. -/
def isResumable (c : Calculation) : Bool :=
  c.id.isSome && c.isPending

def Numbered (c : Calculation) : Prop :=
  c.id.isSome = true

/-- A queued calculation carries the formula of its text. -/
structure Queued (c : Calculation) : Prop where
  numbered : Numbered c
  status : c.status = .queued
  planned : ∃ f, c.plan = some f ∧ Formula.parse c.text = .ok f

/-- A calculation of which nothing but its creation was told. -/
structure Unqueued (c : Calculation) : Prop where
  numbered : Numbered c
  status : c.status = .created

def Caller.Sound : Caller → Prop
  | .parse c | .reject c => Unqueued c
  | .reserve c plan | .announce c plan _ => Unqueued c ∧ Formula.parse c.text = .ok plan
  | .reopen c _ _ => isResumable c = true
  | .send c _ | .offer c _ => Queued c
  | .request _ => False
  | _ => True

def Stage.Sound : Stage → Prop
  | .received c | .begun c => Queued c
  | .evaluating c _ | .pausing c _ | .concluding c _ | .recovering c =>
    Numbered c ∧ c.status = .calculating
  | .lost => False
  | .waiting | .releasing | .exited => True

theorem Numbered.some_eq {c : Calculation} (h : Numbered c) : c.id = some (c.id.getD 0) := by
  rcases c.id.eq_none_or_eq_some with absent | ⟨id, present⟩
  · rw [Numbered, absent] at h
    cases h
  · rw [present, Option.getD_some]

theorem numbered_of_resumable {c : Calculation} (h : isResumable c = true) : Numbered c := by
  rw [isResumable, Bool.and_eq_true] at h
  exact h.1

/-! ### Workers -/

def ended (c : Calculation) (time : Instant) : Except Error Float → Calculation
  | .ok x => { c with result := some x, status := .done, finishedAt := some time }
  | .error e => failed c e.message time

/-- All that the own step of a worker can be. -/
inductive WorkerStep (k : Collaborators) (s : Service) (view : WorkerView) :
    Stage → Service → Worker → Prop where
  | left (closed : s.isOpen = false) (unheld : s.hasHandoff = false) :
      WorkerStep k s view .waiting s ⟨.exited, view⟩
  | shown {c : Calculation} :
      WorkerStep k s view (.received c) s
        ⟨.begun c, { view with state := .busy, current := c.id }⟩
  | began {c : Calculation} {f : Formula} (right : Formula.parse c.text = .ok f) :
      WorkerStep k s view (.begun c) (s.heard .changed { c with status := .calculating })
        ⟨.evaluating { c with status := .calculating } (.start f), view⟩
  | moved {c : Calculation} {e e' : Evaluation} (step : e.step s.table = .running e') :
      WorkerStep k s view (.evaluating c e) s ⟨.evaluating c e', view⟩
  | finished {c : Calculation} {e : Evaluation} {outcome : Except Error Float}
      (step : e.step s.table = .finished outcome) :
      WorkerStep k s view (.evaluating c e) s ⟨.concluding c outcome, view⟩
  | paused {c : Calculation} {e e' : Evaluation} {charge : Charge} {table : CostTable}
      (step : e.step s.table = .pausing charge e') :
      WorkerStep k s view (.evaluating c e) { s with charges := charge :: s.charges, table }
        ⟨.pausing c e', view⟩
  | panicked {c : Calculation} {e e' : Evaluation} {charge : Charge} {table : CostTable}
      (step : e.step s.table = .pausing charge e')
      (panic : (k.pacer (s.charges.length + 1)).panics = true) :
      WorkerStep k s view (.evaluating c e) { s with charges := charge :: s.charges, table }
        ⟨.recovering c, view⟩
  | resumed {c : Calculation} {e : Evaluation} :
      WorkerStep k s view (.pausing c e) s ⟨.evaluating c e, view⟩
  | concluded {c : Calculation} {outcome : Except Error Float} :
      WorkerStep k s view (.concluding c outcome)
        (s.concludedWith (ended c (k.clock s.readings) outcome)) ⟨.releasing, view⟩
  | recovered {c : Calculation} :
      WorkerStep k s view (.recovering c)
        (s.concludedWith (failed c panicMessage (k.clock s.readings))) ⟨.releasing, view⟩
  | released :
      WorkerStep k s view .releasing s ⟨.waiting, { view with state := .idle, current := none }⟩

theorem stepWorker_cases (forwards : k.Forwards) {w w' : Worker} (sound : w.stage.Sound)
    (h : s.stepWorker k w = some (t, w')) : WorkerStep k s w.view w.stage t w' := by
  obtain ⟨stage, view⟩ := w
  cases stage with
  | waiting =>
    simp only [stepWorker] at h
    split at h
    · rename_i leaving
      cases h
      rw [Bool.and_eq_true, Bool.not_eq_true', Bool.not_eq_true'] at leaving
      exact .left leaving.1 leaving.2
    · cases h
  | received c =>
    cases h
    exact .shown
  | begun c =>
    obtain ⟨_, status, f, plan, right⟩ := sound
    simp only [stepWorker, beginWork, Calculation.beginCalculating, status, if_true,
      tell_eq forwards, plan] at h
    cases h
    have began : WorkerStep k s view (.begun c) _ _ := .began right
    simpa only [plan] using began
  | evaluating c e =>
    simp only [stepWorker, evaluate, beginPause] at h
    split at h
    · rename_i step
      cases h
      exact .moved step
    · rename_i step
      cases h
      exact .finished step
    · rename_i step
      split at h <;> rename_i reaction <;> cases h <;> injection reaction with same panics <;>
        subst same
      · exact .panicked step panics
      · exact .paused step
  | pausing c e =>
    cases h
    exact .resumed
  | concluding c outcome =>
    obtain ⟨_, status⟩ := sound
    cases outcome <;>
    · simp only [stepWorker, conclude, now, Calculation.complete, Calculation.fail, status, or_true,
        if_true, tell_eq forwards] at h
      cases h
      exact .concluded
  | recovering c =>
    obtain ⟨_, status⟩ := sound
    simp only [stepWorker, recover, now, Calculation.fail, status, or_true, if_true,
      tell_eq forwards] at h
    cases h
    exact .recovered
  | releasing =>
    cases h
    exact .released
  | exited => cases h
  | lost => cases h

/-! ### Callers -/

def numbered (s : Service) (c : Calculation) : Calculation :=
  { c with id := some s.store.nextId }

def introduced (s : Service) (c : Calculation) : Service :=
  { s with
    store := (s.store.create c).2
    notices := ⟨.created, s.numbered c⟩ :: s.notices
    readings := s.readings + 1 }

def reopened (c : Calculation) : Calculation :=
  { c with plan := none, result := none, status := .created }

/-- All that the own step of a caller can be. -/
inductive CallerStep (k : Collaborators) (s : Service) : Caller → Service → Caller → Prop where
  | submitted {text : String} :
      CallerStep k s (.submit text) (s.introduced (.new text (k.clock s.readings)))
        (.parse (s.numbered (.new text (k.clock s.readings))))
  | parsed {c : Calculation} {f : Formula} (right : Formula.parse c.text = .ok f) :
      CallerStep k s (.parse c) s (.reserve c f)
  | unparsed {c : Calculation} {e : Error} (wrong : Formula.parse c.text = .error e) :
      CallerStep k s (.parse c) (s.concludedWith (failed c e.message (k.clock s.readings)))
        (.done (.submitted (failed c e.message (k.clock s.readings))))
  | reserved {c : Calculation} {f : Formula} (isOpen : s.isOpen = true) :
      CallerStep k s (.reserve c f) s (.announce c f .submitted)
  | late {c : Calculation} {f : Formula} (closed : s.isOpen = false) :
      CallerStep k s (.reserve c f) s (.reject c)
  | rejected {c : Calculation} :
      CallerStep k s (.reject c)
        (s.concludedWith (failed c Error.poolUnavailable.message (k.clock s.readings)))
        (.done (.refused .poolUnavailable))
  | exhausted {count : Nat} : CallerStep k s (.resume [] count) s (.done (.resumed count))
  | skipped {c : Calculation} {rest : List Calculation} {count : Nat}
      (idle : isResumable c = false) :
      CallerStep k s (.resume (c :: rest) count) s (.resume rest count)
  | reopening {c : Calculation} {rest : List Calculation} {count : Nat}
      (resumable : isResumable c = true) (isOpen : s.isOpen = true) :
      CallerStep k s (.resume (c :: rest) count) s (.reopen c rest count)
  | stopped {c : Calculation} {rest : List Calculation} {count : Nat}
      (resumable : isResumable c = true) (closed : s.isOpen = false) :
      CallerStep k s (.resume (c :: rest) count) s (.done (.refused .poolUnavailable))
  | reopened {c : Calculation} {rest : List Calculation} {count : Nat} {f : Formula}
      (right : Formula.parse c.text = .ok f) :
      CallerStep k s (.reopen c rest count) s (.announce (reopened c) f (.resume rest count))
  | unreadable {c : Calculation} {rest : List Calculation} {count : Nat} {e : Error}
      (wrong : Formula.parse c.text = .error e) :
      CallerStep k s (.reopen c rest count)
        (s.concludedWith (failed (Service.reopened c) e.message (k.clock s.readings)))
        (.resume rest count)
  | announced {c : Calculation} {f : Formula} {next : Then} :
      CallerStep k s (.announce c f next)
        (s.heard .changed { c with plan := some f, status := .queued })
        (.send { c with plan := some f, status := .queued } next)
  | sent {c : Calculation} {next : Then} : CallerStep k s (.send c next) s (.offer c next)
  | stranded {c : Calculation} {next : Then} (gone : s.workers.all Worker.isGone = true) :
      CallerStep k s (.offer c next) s (.done (.refused .poolUnavailable))
  | acquired (isOpen : s.isOpen = true) : CallerStep k s .acquire s .hold
  | barred (closed : s.isOpen = false) :
      CallerStep k s .acquire s (.done (.refused .poolUnavailable))
  | closed : CallerStep k s .close { s with isOpen := false } .join
  | repeated (closed : s.isOpen = false) : CallerStep k s .close s (.done .stopped)
  | joined (gone : s.workers.all Worker.isGone = true) :
      CallerStep k s .join s (.done .stopped)

theorem isResumable_eq_false {c : Calculation} :
    isResumable c = false ↔ (c.id.isNone || !c.isPending) = true := by
  rw [isResumable]
  cases c.id <;> cases c.isPending <;> simp

theorem resume_cases {rest : List Calculation} {count : Nat} :
    CallerStep k s (.resume rest count) s (s.resume rest count) := by
  cases rest with
  | nil => exact .exhausted
  | cons c rest =>
    rw [Service.resume]
    split
    · rename_i idle
      exact .skipped (isResumable_eq_false.2 idle)
    · rename_i resumable
      have resumable : isResumable c = true := by
        rw [← Bool.not_eq_false, isResumable_eq_false]
        exact resumable
      split
      · rename_i isOpen
        exact .reopening resumable isOpen
      · rename_i closed
        exact .stopped resumable (Bool.not_eq_true _ ▸ closed)

theorem stepCaller_cases (forwards : k.Forwards) {c c' : Caller} (sound : c.Sound)
    (h : s.stepCaller k c = some (t, c')) : CallerStep k s c t c' := by
  cases c with
  | submit text =>
    simp only [stepCaller, submit, now, introduce_eq forwards] at h
    cases h
    exact .submitted
  | parse c =>
    simp only [stepCaller, parse] at h
    split at h
    · rename_i right
      cases h
      exact .parsed right
    · rename_i wrong
      rw [failParse_eq forwards sound.status] at h
      cases h
      exact .unparsed wrong
  | reserve c plan =>
    simp only [stepCaller] at h
    split at h <;> rename_i intake <;> cases h
    · exact .reserved intake
    · exact .late (Bool.not_eq_true _ ▸ intake)
  | reject c =>
    simp only [stepCaller, reject, failParse_eq forwards sound.status] at h
    cases h
    exact .rejected
  | resume rest count =>
    cases h
    exact resume_cases
  | reopen c rest count =>
    have pending : c.isPending = true := ((Bool.and_eq_true _ _).mp sound).2
    simp only [stepCaller, reopen, Calculation.reopen, pending, if_true] at h
    split at h
    · rename_i right
      cases h
      exact .reopened right
    · rename_i wrong
      rw [failParse_eq forwards rfl] at h
      cases h
      exact .unreadable wrong
  | announce c plan next =>
    simp only [stepCaller, announce, Calculation.queue, sound.1.status, if_true,
      tell_eq forwards] at h
    cases h
    exact .announced
  | send c next =>
    simp only [stepCaller, send, sound.status, if_true] at h
    cases h
    exact .sent
  | offer c next =>
    simp only [stepCaller] at h
    split at h <;> rename_i gone <;> cases h
    exact .stranded gone
  | request c => exact sound.elim
  | acquire =>
    simp only [stepCaller] at h
    split at h <;> rename_i intake <;> cases h
    · exact .acquired intake
    · exact .barred (Bool.not_eq_true _ ▸ intake)
  | hold => cases h
  | close =>
    simp only [stepCaller] at h
    split at h <;> rename_i intake <;> cases h
    · exact .closed
    · exact .repeated (Bool.not_eq_true _ ▸ intake)
  | join =>
    simp only [stepCaller] at h
    split at h <;> rename_i gone <;> cases h
    exact .joined gone
  | done reply => cases h

end Service

end Reckoner
