import Reckoner.Proofs.Service.Steps

/-!
# Turns

What the own step of a worker or a caller can be, whatever the listener makes of a notice and
whether or not it panics. A worker is described by its standing, which says what it has in hand and
how far that was told, but not how far an evaluation got. `stepWorker_turn` and `stepCaller_turn`
hold for a worker and a caller whose calculation is in the status that its place asks for; `Apt`
says which one that is, and every turn keeps it.
-/

namespace Reckoner

/-- What callers tell: nothing of a calculation in the hands of a worker. -/
structure Notice.Outside (m : Notice) : Prop where
  idle : m.calculation.status ≠ .calculating
  calm : m.calculation.status ≠ .failed Service.panicMessage

namespace Service

variable {k : Collaborators} {s t : Service}

/-! ### Notices -/

theorem head_append {first : String} {c : Char} (begins : first.toList.head? = some c)
    (rest : String) : (first ++ rest).toList.head? = some c := by
  rw [String.toList_append, List.head?_append, begins, Option.some_or]

/-- `panicMessage` begins with another letter than the message of any error. -/
theorem head_message (e : Error) : e.message.toList.head? ≠ some 'w' := by
  have other : ∀ {text : String} {c : Char}, text.toList.head? = some c → c ≠ 'w' →
      text.toList.head? ≠ some 'w' :=
    fun head different same => different (Option.some.inj (head.symm.trans same))
  have parse : "parse error at position ".toList.head? = some 'p' := by decide
  have configuration : "invalid configuration for '".toList.head? = some 'i' := by decide
  have transition : "invalid status transition from '".toList.head? = some 'i' := by decide
  have storage : "storage error: ".toList.head? = some 's' := by decide
  cases e with
  | parse position detail =>
    exact other (head_append (head_append (head_append parse _) _) _) (by decide)
  | divisionByZero => decide
  | configuration setting detail =>
    exact other (head_append (head_append (head_append configuration _) _) _) (by decide)
  | poolUnavailable => decide
  | transition origin target =>
    exact other (head_append (head_append (head_append (head_append transition _) _) _) _)
      (by decide)
  | storage detail => exact other (head_append storage _) (by decide)

theorem message_ne_panicMessage (e : Error) : e.message ≠ panicMessage :=
  fun same => head_message e (same ▸ by decide)

/-- A later copy of a calculation, after its end. -/
structure Ends (c d : Calculation) : Prop where
  id : d.id = c.id
  text : d.text = c.text
  terminal : d.isTerminal = true

/-- Whether the listener panics while it is told that a panic ended a calculation. -/
def overwhelms (k : Collaborators) (earlier : Nat) (m : Notice) : Bool :=
  m.occasion = .completed && m.calculation.status = .failed panicMessage
    && (k.listener earlier m).panics

/-- After a step of a single worker or caller, which leaves the intake and all others alone and
tells the listener of some notices. -/
structure Follows (s t : Service) (told : List Notice) : Prop where
  isOpen : t.isOpen = s.isOpen
  workers : t.workers = s.workers
  callers : t.callers = s.callers
  notices : t.notices = told ++ s.notices

theorem Follows.refl (s : Service) : Follows s s [] :=
  ⟨rfl, rfl, rfl, rfl⟩

/-! ### Workers -/

/-- What a worker has in hand. -/
inductive Standing where
  | resting
  | taken (c : Calculation)
  /-- Shown as busy with it. -/
  | shown (c : Calculation)
  /-- Told of as calculating. -/
  | calculating (c : Calculation)
  /-- Told the end of the last calculation, still shown as busy. -/
  | ended
  | left
  | lost

def Stage.standing : Stage → Standing
  | .waiting => .resting
  | .received c => .taken c
  | .begun c => .shown c
  | .evaluating c _ | .pausing c _ | .concluding c _ => .calculating c
  | .recovering c => if c.status = .calculating then .calculating c else .ended
  | .releasing => .ended
  | .exited => .left
  | .lost => .lost

theorem standing_recovering (c : Calculation) :
    (Stage.recovering c).standing = .calculating c ∨ (Stage.recovering c).standing = .ended := by
  rw [Stage.standing]
  split
  · exact .inl rfl
  · exact .inr rfl

theorem standing_eq_resting {stage : Stage} : stage.standing = .resting ↔ stage = .waiting := by
  cases stage with
  | recovering c => rcases standing_recovering c with same | same <;> simp [same]
  | _ => simp [Stage.standing]

def Standing.Apt : Standing → Prop
  | taken c | shown c => c.status = .queued
  | calculating c => c.status = .calculating
  | _ => True

/-- All that the own step of a worker can be. -/
inductive WorkerTurn (k : Collaborators) (s t : Service) (view : WorkerView) :
    Standing → Standing → WorkerView → Prop where
  | left (quiet : Follows s t []) (closed : s.isOpen = false) (unheld : s.hasHandoff = false) :
      WorkerTurn k s t view .resting .left view
  | shown {c : Calculation} (quiet : Follows s t []) :
      WorkerTurn k s t view (.taken c) (.shown c) { view with state := .busy, current := c.id }
  | begun {c : Calculation}
      (told : Follows s t [⟨.changed, { c with status := .calculating }⟩]) :
      WorkerTurn k s t view (.shown c) (.calculating { c with status := .calculating }) view
  | going {c : Calculation} (quiet : Follows s t []) :
      WorkerTurn k s t view (.calculating c) (.calculating c) view
  | ended {c d : Calculation} (told : Follows s t [⟨.completed, d⟩]) (ends : Ends c d)
      (harmless : overwhelms k s.notices.length ⟨.completed, d⟩ = false) :
      WorkerTurn k s t view (.calculating c) .ended view
  | lost {c d : Calculation} (told : Follows s t [⟨.completed, d⟩]) (ends : Ends c d)
      (fatal : overwhelms k s.notices.length ⟨.completed, d⟩ = true) :
      WorkerTurn k s t view (.calculating c) .lost view
  | excused (quiet : Follows s t []) : WorkerTurn k s t view .ended .ended view
  | released (quiet : Follows s t []) :
      WorkerTurn k s t view .ended .resting { view with state := .idle, current := none }

/-! ### Own steps of workers -/

theorem follows_tell {occasion : Occasion} {c : Calculation} {panics : Bool}
    (tell : s.tell k occasion c = (t, panics)) :
    Follows s t [⟨occasion, c⟩] ∧ panics = (k.listener s.notices.length ⟨occasion, c⟩).panics := by
  cases tell
  exact ⟨⟨rfl, rfl, rfl, rfl⟩, rfl⟩

theorem follows_beginPause {charge : Charge} {panics : Bool}
    (pause : s.beginPause k charge = (t, panics)) : Follows s t [] := by
  cases pause
  exact ⟨rfl, rfl, rfl, rfl⟩

theorem overwhelms_eq_false {earlier : Nat} {m : Notice}
    (calm : m.calculation.status ≠ .failed panicMessage) : overwhelms k earlier m = false := by
  simp [overwhelms, calm]

theorem Follows.of_now {told : List Notice}
    (h : Follows { s with readings := s.readings + 1 } t told) : Follows s t told :=
  ⟨h.isOpen, h.workers, h.callers, h.notices⟩

theorem not_calculating_of_isTerminal {c : Calculation} (terminal : c.isTerminal = true) :
    c.status ≠ .calculating := by
  intro going
  rw [Calculation.isTerminal, going] at terminal
  cases terminal

section

variable {c : Calculation} {view : WorkerView}

theorem beginWork_turn (queued : c.status = .queued) :
    WorkerTurn k s (s.beginWork k c).1 view (.shown c) (s.beginWork k c).2.standing view := by
  simp only [beginWork, Calculation.beginCalculating, queued, if_true]
  split <;> rename_i tell
  · rw [Stage.standing, if_pos rfl]
    exact .begun (follows_tell tell).1
  · split <;> exact .begun (follows_tell tell).1

theorem evaluate_turn (calculating : c.status = .calculating) (e : Evaluation) :
    WorkerTurn k s (s.evaluate k c e).1 view (.calculating c) (s.evaluate k c e).2.standing view := by
  unfold evaluate
  split
  · exact .going (.refl s)
  · exact .going (.refl s)
  · split <;> rename_i pause
    · rw [Stage.standing, if_pos calculating]
      exact .going (follows_beginPause pause)
    · exact .going (follows_beginPause pause)

theorem ends_ended (c : Calculation) (time : Instant) (outcome : Except Error Float) :
    Ends c (ended c time outcome) := by
  cases outcome <;> exact ⟨rfl, rfl, rfl⟩

theorem status_ended (c : Calculation) (time : Instant) (outcome : Except Error Float) :
    (ended c time outcome).status ≠ .failed panicMessage := by
  cases outcome with
  | ok x => nofun
  | error e => exact fun same => message_ne_panicMessage e (Calculation.Status.failed.inj same)

/-- The end of an evaluation is told, and a panic of the listener is left at that. -/
theorem conclude_turn (calculating : c.status = .calculating) (outcome : Except Error Float) :
    WorkerTurn k s (s.conclude k c outcome).1 view (.calculating c)
      (s.conclude k c outcome).2.standing view := by
  have ends := ends_ended c (k.clock s.readings) outcome
  have calm := status_ended c (k.clock s.readings) outcome
  have past := not_calculating_of_isTerminal ends.terminal
  cases outcome <;>
  · simp only [conclude, now, Calculation.complete, Calculation.fail, calculating, or_true, if_true]
    simp only [Service.ended, failed] at ends calm past
    split <;> rename_i tell
    · rw [Stage.standing, if_neg past]
      exact .ended (follows_tell tell).1.of_now ends (overwhelms_eq_false calm)
    · exact .ended (follows_tell tell).1.of_now ends (overwhelms_eq_false calm)

/-- After a panic a calculation that has not ended fails; a panic of the listener at that moment is
the end of the worker. -/
theorem recover_turn : WorkerTurn k s (s.recover k c).1 view (Stage.recovering c).standing
    (s.recover k c).2.standing view := by
  by_cases calculating : c.status = .calculating
  · rw [Stage.standing, if_pos calculating]
    simp only [recover, now, calculating, Calculation.fail, or_true, if_true]
    have ends : ∀ time, Ends c { c with
        result := none, status := .failed panicMessage, finishedAt := some time } :=
      fun _ => ⟨rfl, rfl, rfl⟩
    split <;> rename_i tell <;> obtain ⟨told, reaction⟩ := follows_tell tell
    · exact .lost told.of_now (ends _) (by simp [overwhelms, ← reaction])
    · exact .ended told.of_now (ends _) (by simp [overwhelms, ← reaction])
  · rw [Stage.standing, if_neg calculating, recover, if_neg calculating]
    exact .excused (.refl s)

end

theorem stepWorker_turn {w w' : Worker} (apt : w.stage.standing.Apt)
    (h : s.stepWorker k w = some (t, w')) :
    WorkerTurn k s t w.view w.stage.standing w'.stage.standing w'.view := by
  obtain ⟨stage, view⟩ := w
  cases stage with
  | waiting =>
    simp only [stepWorker] at h
    split at h
    · rename_i leaving
      cases h
      rw [Bool.and_eq_true, Bool.not_eq_true', Bool.not_eq_true'] at leaving
      exact .left (.refl s) leaving.1 leaving.2
    · cases h
  | received c =>
    cases h
    exact .shown (.refl s)
  | begun c =>
    cases h
    exact beginWork_turn apt
  | evaluating c e =>
    cases h
    exact evaluate_turn apt e
  | pausing c e =>
    cases h
    exact .going (.refl s)
  | concluding c outcome =>
    cases h
    exact conclude_turn apt outcome
  | recovering c =>
    cases h
    exact recover_turn
  | releasing =>
    cases h
    exact .released (.refl s)
  | exited => cases h
  | lost => cases h

namespace WorkerTurn

variable {before after : Standing} {view view' : WorkerView}

theorem apt (turn : WorkerTurn k s t view before after view') (apt : before.Apt) : after.Apt := by
  cases turn with
  | shown | going => exact apt
  | begun => rfl
  | _ => trivial

theorem follows (turn : WorkerTurn k s t view before after view') : ∃ told, Follows s t told := by
  cases turn <;> exact ⟨_, by assumption⟩

theorem leaving (turn : WorkerTurn k s t view before .left view') :
    before = .resting ∧ s.isOpen = false ∧ s.hasHandoff = false := by
  cases turn with
  | left _ closed unheld => exact ⟨rfl, closed, unheld⟩

end WorkerTurn

/-! ### Callers -/

/-- The status that a calculation has in the hands of a caller. -/
def Caller.Apt : Caller → Prop
  | .parse c | .reserve c _ | .reject c | .announce c _ _ => c.status = .created
  | .reopen c _ _ => c.isPending = true
  | .offer c _ => c.status = .queued
  | _ => True

def Caller.tells : Caller → Bool
  | .submit _ | .parse _ | .reject _ | .reopen .. | .announce .. => true
  | _ => false

/-- All that the own step of a caller can be. -/
inductive CallerTurn (k : Collaborators) (s t : Service) : Caller → Caller → Prop where
  | submitted {text : String} {c : Calculation} (told : Follows s t [⟨.created, c⟩])
      (created : c.status = .created) (same : c.text = text) :
      CallerTurn k s t (.submit text) (.parse c)
  | parsed {c : Calculation} {f : Formula} (right : Formula.parse c.text = .ok f)
      (quiet : Follows s t []) : CallerTurn k s t (.parse c) (.reserve c f)
  | unparsed {c d : Calculation} {e : Error} (wrong : Formula.parse c.text = .error e)
      (told : Follows s t [⟨.completed, d⟩]) (failed : d.status = .failed e.message) :
      CallerTurn k s t (.parse c) (.done (.submitted d))
  | reserved {c : Calculation} {f : Formula} (quiet : Follows s t []) (isOpen : s.isOpen = true) :
      CallerTurn k s t (.reserve c f) (.announce c f .submitted)
  | late {c : Calculation} {f : Formula} (quiet : Follows s t []) (closed : s.isOpen = false) :
      CallerTurn k s t (.reserve c f) (.reject c)
  | rejected {c d : Calculation} (told : Follows s t [⟨.completed, d⟩])
      (failed : d.status = .failed Error.poolUnavailable.message) :
      CallerTurn k s t (.reject c) (.done (.refused .poolUnavailable))
  | exhausted {count : Nat} (quiet : Follows s t []) :
      CallerTurn k s t (.resume [] count) (.done (.resumed count))
  | skipped {c : Calculation} {rest : List Calculation} {count : Nat} (quiet : Follows s t [])
      (idle : isResumable c = false) :
      CallerTurn k s t (.resume (c :: rest) count) (.resume rest count)
  | reopening {c : Calculation} {rest : List Calculation} {count : Nat} (quiet : Follows s t [])
      (resumable : isResumable c = true) (isOpen : s.isOpen = true) :
      CallerTurn k s t (.resume (c :: rest) count) (.reopen c rest count)
  | stopped {c : Calculation} {rest : List Calculation} {count : Nat} (quiet : Follows s t [])
      (resumable : isResumable c = true) (closed : s.isOpen = false) :
      CallerTurn k s t (.resume (c :: rest) count) (.done (.refused .poolUnavailable))
  | reopened {c d : Calculation} {rest : List Calculation} {count : Nat} {f : Formula}
      (quiet : Follows s t []) (created : d.status = .created) :
      CallerTurn k s t (.reopen c rest count) (.announce d f (.resume rest count))
  | unreadable {c d : Calculation} {rest : List Calculation} {count : Nat} {e : Error}
      (told : Follows s t [⟨.completed, d⟩]) (failed : d.status = .failed e.message) :
      CallerTurn k s t (.reopen c rest count) (.resume rest count)
  | announced {c d : Calculation} {f : Formula} {next : Then}
      (told : Follows s t [⟨.changed, d⟩]) (queued : d.status = .queued) :
      CallerTurn k s t (.announce c f next) (.send d next)
  | sent {c : Calculation} {next : Then} (quiet : Follows s t []) (queued : c.status = .queued) :
      CallerTurn k s t (.send c next) (.offer c next)
  | declined {c : Calculation} {next : Then} (quiet : Follows s t []) (other : c.status ≠ .queued) :
      CallerTurn k s t (.send c next) (.done (.refused (.illegal c.status "calculating")))
  | stranded {c : Calculation} {next : Then} (quiet : Follows s t [])
      (gone : s.workers.all Worker.isGone = true) :
      CallerTurn k s t (.offer c next) (.done (.refused .poolUnavailable))
  | requested {c : Calculation} (quiet : Follows s t []) (isOpen : s.isOpen = true) :
      CallerTurn k s t (.request c) (.send c .accepted)
  | turnedAway {c : Calculation} (quiet : Follows s t []) (closed : s.isOpen = false) :
      CallerTurn k s t (.request c) (.done (.refused .poolUnavailable))
  | acquired (quiet : Follows s t []) (isOpen : s.isOpen = true) : CallerTurn k s t .acquire .hold
  | barred (quiet : Follows s t []) (closed : s.isOpen = false) :
      CallerTurn k s t .acquire (.done (.refused .poolUnavailable))
  | closed (same : t = { s with isOpen := false }) (isOpen : s.isOpen = true) :
      CallerTurn k s t .close .join
  | repeated (quiet : Follows s t []) (closed : s.isOpen = false) :
      CallerTurn k s t .close (.done .stopped)
  | joined (quiet : Follows s t []) (gone : s.workers.all Worker.isGone = true) :
      CallerTurn k s t .join (.done .stopped)
  | unwound {c : Caller} {m : Notice} (tells : c.tells = true) (told : Follows s t [m])
      (outside : m.Outside) (panic : (k.listener s.notices.length m).panics = true) :
      CallerTurn k s t c (.done .unwound)

/-! ### Own steps of callers -/

theorem outside_early {c : Calculation} (early : c.status = .created ∨ c.status = .queued)
    (occasion : Occasion) : Notice.Outside ⟨occasion, c⟩ := by
  rcases early with same | same
  · exact ⟨by simp [same], by simp [same]⟩
  · exact ⟨by simp [same], by simp [same]⟩

theorem outside_failed {c : Calculation} {e : Error} (failed : c.status = .failed e.message)
    (occasion : Occasion) : Notice.Outside ⟨occasion, c⟩ := by
  refine ⟨?_, ?_⟩
  · simp [failed]
  · rw [failed]
    exact fun same => message_ne_panicMessage e (Calculation.Status.failed.inj same)

/-- A calculation that fails before it was queued: the caller goes on, or the listener panics. -/
theorem failParse_cases {c : Calculation} (created : c.status = .created) (e : Error)
    (next : Calculation → Caller) : ∃ d, d.status = .failed e.message ∧
      Follows s (s.failParse k c e next).1 [⟨.completed, d⟩] ∧
      ((s.failParse k c e next).2 = next d ∨ (s.failParse k c e next).2 = .done .unwound ∧
        (k.listener s.notices.length ⟨.completed, d⟩).panics = true) := by
  refine ⟨failed c e.message (k.clock s.readings), rfl, ?_⟩
  simp only [failParse, now, Calculation.fail, created, true_or, if_true]
  split <;> rename_i tell <;> obtain ⟨told, reaction⟩ := follows_tell tell
  · exact ⟨told.of_now, .inr ⟨rfl, reaction.symm⟩⟩
  · exact ⟨told.of_now, .inl rfl⟩

theorem submit_turn (text : String) :
    CallerTurn k s (s.submit k text).1 (.submit text) (s.submit k text).2 := by
  simp only [submit, now, introduce, Store.issue]
  split <;> rename_i intro <;> simp only [Prod.mk.injEq] at intro <;>
    obtain ⟨rfl, rfl, reaction⟩ := intro
  · exact .unwound (m := ⟨.created, s.numbered (.new text (k.clock s.readings))⟩)
      rfl ⟨rfl, rfl, rfl, rfl⟩ (outside_early (.inl rfl) _) reaction
  · exact .submitted ⟨rfl, rfl, rfl, rfl⟩ rfl rfl

theorem announce_turn {c : Calculation} {plan : Formula} {next : Then}
    (created : c.status = .created) : CallerTurn k s (s.announce k c plan next).1
      (.announce c plan next) (s.announce k c plan next).2 := by
  simp only [announce, Calculation.queue, created, if_true]
  split <;> rename_i tell <;> obtain ⟨told, reaction⟩ := follows_tell tell
  · exact .unwound rfl told (outside_early (.inr rfl) _) reaction.symm
  · exact .announced told rfl

theorem resume_turn {rest : List Calculation} {count : Nat} :
    CallerTurn k s s (.resume rest count) (s.resume rest count) := by
  cases rest with
  | nil => exact .exhausted (.refl s)
  | cons c rest =>
    rw [Service.resume]
    split
    · rename_i idle
      exact .skipped (.refl s) (isResumable_eq_false.2 idle)
    · rename_i resumable
      have resumable : isResumable c = true := by
        rw [← Bool.not_eq_false, isResumable_eq_false]
        exact resumable
      split
      · rename_i isOpen
        exact .reopening (.refl s) resumable isOpen
      · rename_i closed
        exact .stopped (.refl s) resumable (Bool.not_eq_true _ ▸ closed)

theorem reopen_turn {c : Calculation} {rest : List Calculation} {count : Nat}
    (pending : c.isPending = true) : CallerTurn k s (s.reopen k c rest count).1
      (.reopen c rest count) (s.reopen k c rest count).2 := by
  simp only [reopen, Calculation.reopen, pending, if_true]
  split
  · exact .reopened (.refl s) rfl
  · rename_i e wrong
    obtain ⟨d, failed, told, on | ⟨on, panics⟩⟩ :=
      failParse_cases (k := k) (s := s) (c := { c with
        plan := none, result := none, status := .created }) rfl e fun _ => .resume rest count
    · rw [on]
      exact .unreadable told failed
    · rw [on]
      exact .unwound rfl told (outside_failed failed _) panics

theorem parse_turn {c : Calculation} (created : c.status = .created) :
    CallerTurn k s (s.parse k c).1 (.parse c) (s.parse k c).2 := by
  unfold parse
  split
  · rename_i right
    exact .parsed right (.refl s)
  · rename_i e wrong
    obtain ⟨d, failed, told, on | ⟨on, panics⟩⟩ :=
      failParse_cases (k := k) (s := s) created e fun c => .done (.submitted c)
    · exact on ▸ .unparsed wrong told failed
    · exact on ▸ .unwound rfl told (outside_failed failed _) panics

theorem reject_turn {c : Calculation} (created : c.status = .created) :
    CallerTurn k s (s.reject k c).1 (.reject c) (s.reject k c).2 := by
  obtain ⟨d, failed, told, on | ⟨on, panics⟩⟩ := failParse_cases (k := k) (s := s) created
    .poolUnavailable fun _ => .done (.refused .poolUnavailable)
  · exact on ▸ .rejected told failed
  · exact on ▸ .unwound rfl told (outside_failed failed _) panics

theorem stepCaller_turn {c c' : Caller} (apt : c.Apt) (h : s.stepCaller k c = some (t, c')) :
    CallerTurn k s t c c' := by
  have turn : ∀ {d : Caller} {r : Service × Caller}, CallerTurn k s r.1 d r.2 →
      some r = some (t, c') → CallerTurn k s t d c' := by
    rintro d r turn same
    cases same
    exact turn
  cases c with
  | submit text => exact turn (submit_turn text) h
  | parse c => exact turn (parse_turn apt) h
  | reserve c plan =>
    simp only [stepCaller] at h
    split at h <;> rename_i intake <;> cases h
    · exact .reserved (.refl s) intake
    · exact .late (.refl s) (Bool.not_eq_true _ ▸ intake)
  | reject c => exact turn (reject_turn apt) h
  | resume rest count =>
    cases h
    exact resume_turn
  | reopen c rest count => exact turn (reopen_turn apt) h
  | announce c plan next => exact turn (announce_turn apt) h
  | send c next =>
    simp only [stepCaller, send] at h
    split at h <;> rename_i queued <;> cases h
    · exact .sent (.refl s) queued
    · exact .declined (.refl s) queued
  | offer c next =>
    simp only [stepCaller] at h
    split at h <;> rename_i gone <;> cases h
    exact .stranded (.refl s) gone
  | request c =>
    simp only [stepCaller] at h
    split at h <;> rename_i intake <;> cases h
    · exact .requested (.refl s) intake
    · exact .turnedAway (.refl s) (Bool.not_eq_true _ ▸ intake)
  | acquire =>
    simp only [stepCaller] at h
    split at h <;> rename_i intake <;> cases h
    · exact .acquired (.refl s) intake
    · exact .barred (.refl s) (Bool.not_eq_true _ ▸ intake)
  | hold => cases h
  | close =>
    simp only [stepCaller] at h
    split at h <;> rename_i intake <;> cases h
    · exact .closed rfl intake
    · exact .repeated (.refl s) (Bool.not_eq_true _ ▸ intake)
  | join =>
    simp only [stepCaller] at h
    split at h <;> rename_i gone <;> cases h
    exact .joined (.refl s) gone
  | done reply => cases h

namespace CallerTurn

variable {c c' : Caller}

theorem apt (turn : CallerTurn k s t c c') (apt : c.Apt) : c'.Apt := by
  cases turn with
  | submitted _ created | reopened _ created => exact created
  | parsed | reserved | late => exact apt
  | reopening _ resumable => exact ((Bool.and_eq_true _ _).mp resumable).2
  | sent _ queued => exact queued
  | _ => trivial

/-- A caller closes the intake, or tells nothing of what the workers have in hand. -/
theorem follows (turn : CallerTurn k s t c c') :
    c = .close ∧ t = { s with isOpen := false } ∨
      ∃ told, Follows s t told ∧ ∀ m ∈ told, m.Outside := by
  cases turn with
  | submitted told created =>
    exact .inr ⟨_, told, List.forall_mem_singleton.2 (outside_early (.inl created) _)⟩
  | announced told queued =>
    exact .inr ⟨_, told, List.forall_mem_singleton.2 (outside_early (.inr queued) _)⟩
  | unparsed _ told failed | rejected told failed | unreadable told failed =>
    exact .inr ⟨_, told, List.forall_mem_singleton.2 (outside_failed failed _)⟩
  | unwound _ told outside => exact .inr ⟨_, told, List.forall_mem_singleton.2 outside⟩
  | closed same => exact .inl ⟨rfl, same⟩
  | _ => exact .inr ⟨[], by assumption, List.forall_mem_nil _⟩

theorem frame (turn : CallerTurn k s t c c') : t.workers = s.workers ∧ t.callers = s.callers ∧
    ∃ told, t.notices = told ++ s.notices ∧ ∀ m ∈ told, m.Outside := by
  rcases turn.follows with ⟨_, rfl⟩ | ⟨told, h, outside⟩
  · exact ⟨rfl, rfl, [], rfl, List.forall_mem_nil _⟩
  · exact ⟨h.workers, h.callers, told, h.notices, outside⟩

theorem intake (turn : CallerTurn k s t c c') (isOpen : t.isOpen = true) : s.isOpen = true := by
  rcases turn.follows with ⟨_, rfl⟩ | ⟨told, h, _⟩
  · cases isOpen
  · rw [← h.isOpen, isOpen]

theorem handoff (turn : CallerTurn k s t c c') (holds : c'.holdsHandoff = true) :
    c.holdsHandoff = true ∨ s.isOpen = true := by
  cases turn with
  | reserved _ isOpen | reopening _ _ isOpen | requested _ isOpen | acquired _ isOpen =>
    exact .inr isOpen
  | reopened | announced | sent => exact .inl rfl
  | _ => cases holds

/-- Only at a closed intake and in a pool without workers a caller is refused. -/
theorem refusal (turn : CallerTurn k s t c c') (refused : c' = .done (.refused .poolUnavailable)) :
    s.isOpen = false ∨ s.workers.all Worker.isGone = true ∨ ∃ d, c = .reject d := by
  cases turn with
  | stopped _ _ closed | turnedAway _ closed | barred _ closed => exact .inl closed
  | stranded _ gone => exact .inr (.inl gone)
  | rejected => exact .inr (.inr ⟨_, rfl⟩)
  | _ => cases refused

end CallerTurn

end Service

end Reckoner
