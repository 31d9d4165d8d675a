import Reckoner.Calculation.Basic

/-!
# The life of a calculation

A call moves the record of a calculation on, or is refused because the status does not allow it.
`attempt_eq` says which it is and what becomes of the record. `history_coherent` says that after any
calls at all the record agrees with its status, and that nothing moves it once it has ended.
-/

namespace Reckoner.Calculation

/-- What can be asked of the record of a calculation. -/
inductive Call where
  | queue (plan : Formula)
  | beginCalculating
  | complete (value : Float) (now : Instant)
  | fail (message : String) (now : Instant)
  | reopen

namespace Call

/-- Whether a status allows the call. Besides the way from created over queued and calculating to
done, a calculation may fail where its text is parsed and where it is calculated, and begin again
as long as it is pending. -/
def isLegal : Call → Status → Bool
  | queue _, .created | beginCalculating, .queued | complete .., .calculating => true
  | fail .., .created | fail .., .calculating => true
  | reopen, .queued | reopen, .calculating => true
  | _, _ => false

/-- The status that the call leads to. -/
def target : Call → Status
  | queue _ => .queued
  | beginCalculating => .calculating
  | complete .. => .done
  | fail message _ => .failed message
  | reopen => .created

/-- What a legal call makes of the record. -/
def effect (c : Calculation) : Call → Calculation
  | queue plan => { c with plan := some plan, status := .queued }
  | beginCalculating => { c with status := .calculating }
  | complete value now => { c with result := some value, status := .done, finishedAt := some now }
  | fail message now => { c with result := none, status := .failed message, finishedAt := some now }
  | reopen => { c with plan := none, result := none, status := .created }

@[simp] theorem status_effect (c : Calculation) (call : Call) :
    (call.effect c).status = call.target := by
  cases call <;> rfl

theorem not_isLegal_of_isTerminal {call : Call} {status : Status}
    (ended : status.isTerminal = true) : call.isLegal status = false := by
  cases status with
  | done | failed message => cases call <;> rfl
  | _ => cases ended

theorem not_isTerminal_of_isLegal {call : Call} {status : Status}
    (legal : call.isLegal status = true) : status.isTerminal = false := by
  refine Bool.eq_false_iff.2 fun ended => ?_
  rw [not_isLegal_of_isTerminal ended] at legal
  cases legal

end Call

def attempt (c : Calculation) : Call → Except Error Calculation
  | .queue plan => c.queue plan
  | .beginCalculating => c.beginCalculating
  | .complete value now => c.complete value now
  | .fail message now => c.fail message now
  | .reopen => c.reopen

/-- A call that the status does not allow is refused with the statuses it would lead from and to. -/
theorem attempt_eq (c : Calculation) (call : Call) :
    c.attempt call = if call.isLegal c.status then .ok (call.effect c)
      else .error (.transition c.status.label call.target.label) := by
  cases call with
  | queue plan => cases same : c.status <;> simp [attempt, queue, same] <;> rfl
  | beginCalculating => cases same : c.status <;> simp [attempt, beginCalculating, same] <;> rfl
  | complete value now => cases same : c.status <;> simp [attempt, complete, same] <;> rfl
  | fail message now => cases same : c.status <;> simp [attempt, fail, same] <;> rfl
  | reopen =>
    cases same : c.status <;>
      simp [attempt, reopen, isPending, Status.isPending, same] <;> rfl

/-- The record behind a call: as it was, if the call is refused. -/
def after (c : Calculation) (call : Call) : Calculation :=
  match c.attempt call with
  | .ok d => d
  | .error _ => c

theorem after_eq (c : Calculation) (call : Call) :
    c.after call = if call.isLegal c.status then call.effect c else c := by
  rw [after, attempt_eq]
  cases call.isLegal c.status <;> rfl

/-- The record behind any number of calls. -/
def history (c : Calculation) (calls : List Call) : Calculation :=
  calls.foldl after c

/-- What no legal call breaks, no calls break. -/
theorem history_keeps {P : Calculation → Prop} {c : Calculation} (start : P c)
    (kept : ∀ c (call : Call), P c → call.isLegal c.status = true → P (call.effect c))
    (calls : List Call) : P (c.history calls) := by
  induction calls generalizing c with
  | nil => exact start
  | cons call rest ih =>
    refine ih ?_
    rw [after_eq]
    split
    · exact kept c call start ‹_›
    · exact start

/-! ### Agreement with the status -/

/-- What the outcome of a calculation says agrees with its status. -/
structure Coherent (c : Calculation) : Prop where
  result : c.result.isSome = true ↔ c.status = .done
  finishedAt : c.finishedAt.isSome = true ↔ c.status.isTerminal = true
  errorMessage : c.errorMessage.isSome = true ↔ ∃ message, c.status = .failed message

/-- A formula comes with the queue and stays up to a result. -/
structure Planned (c : Calculation) : Prop where
  absent : c.status = .created → c.plan = none
  present : c.isPending = true ∨ c.status = .done → c.plan.isSome = true

theorem isSome_errorMessage (c : Calculation) :
    c.errorMessage.isSome = true ↔ ∃ message, c.status = .failed message := by
  cases same : c.status <;> simp [errorMessage, same]

theorem Coherent.blank {c : Calculation} (h : c.Coherent) (going : c.isTerminal = false) :
    c.result = none ∧ c.finishedAt = none := by
  rw [isTerminal] at going
  refine ⟨?_, ?_⟩ <;> rw [← Option.not_isSome_iff_eq_none]
  · rw [h.result]
    intro done
    rw [done] at going
    cases going
  · rw [h.finishedAt, going]
    exact Bool.false_ne_true

theorem Coherent.effect {c : Calculation} {call : Call} (h : c.Coherent)
    (legal : call.isLegal c.status = true) : (call.effect c).Coherent := by
  obtain ⟨noResult, noEnd⟩ := h.blank (Call.not_isTerminal_of_isLegal legal)
  refine ⟨?_, ?_, isSome_errorMessage _⟩
  · cases call <;> simp [Call.effect, noResult]
  · cases call <;> simp [Call.effect, noEnd, Status.isTerminal]

theorem Planned.effect {c : Calculation} {call : Call} (h : c.Planned)
    (legal : call.isLegal c.status = true) : (call.effect c).Planned := by
  constructor
  · intro created
    cases call with
    | reopen => rfl
    | _ => cases created
  · intro planned
    cases call with
    | queue plan => rfl
    | reopen | fail message now =>
      simp [Call.effect, isPending, Status.isPending] at planned
    | beginCalculating | complete value now =>
      -- The formula is the one with which the calculation was pending.
      refine h.present (.inl ?_)
      cases same : c.status <;> simp_all [Call.isLegal, isPending, Status.isPending]

theorem coherent_new (id : Option Id) (text : String) (now : Instant) :
    Coherent { new text now with id } :=
  ⟨by simp [new], by simp [new, Status.isTerminal], isSome_errorMessage _⟩

theorem planned_new (id : Option Id) (text : String) (now : Instant) :
    Planned { new text now with id } :=
  ⟨fun _ => rfl, by simp [new, isPending, Status.isPending]⟩

/-! ### Histories -/

/-- Nothing moves a calculation that has ended. -/
theorem history_of_isTerminal {c : Calculation} (ended : c.isTerminal = true) (calls : List Call) :
    c.history calls = c := by
  induction calls with
  | nil => rfl
  | cons call rest ih =>
    rw [history, List.foldl_cons, after_eq, Call.not_isLegal_of_isTerminal ended]
    exact ih

/-- After any calls on a new calculation, with or without a number, its outcome and its formula
agree with its status; its number, text and time of creation are the first ones. A call that the
status allows leads to its target, and any other one is refused with the status and leaves the
record as it is, as do all calls once the calculation has ended. -/
theorem history_coherent (id : Option Id) (text : String) (now : Instant) (calls : List Call) :
    let c := { new text now with id }.history calls
    c.Coherent ∧ c.Planned ∧ (c.id = id ∧ c.text = text ∧ c.createdAt = now) ∧
      (∀ call : Call, if call.isLegal c.status then
          ∃ d, c.attempt call = .ok d ∧ c.after call = d ∧ d.status = call.target
        else c.attempt call = .error (.transition c.status.label call.target.label) ∧
          c.after call = c) ∧
      (c.isTerminal = true → ∀ more, c.history more = c) := by
  intro c
  have coherent : c.Coherent :=
    history_keeps (P := Coherent) (coherent_new id text now) (fun _ _ => Coherent.effect) calls
  have planned : c.Planned :=
    history_keeps (P := Planned) (planned_new id text now) (fun _ _ => Planned.effect) calls
  have same : c.id = id ∧ c.text = text ∧ c.createdAt = now := by
    refine history_keeps (P := fun c => c.id = id ∧ c.text = text ∧ c.createdAt = now)
      ⟨rfl, rfl, rfl⟩ (fun c call h _ => ?_) calls
    cases call <;> exact h
  refine ⟨coherent, planned, same, fun call => ?_, history_of_isTerminal⟩
  rw [attempt_eq, after_eq]
  split
  · exact ⟨_, rfl, rfl, Call.status_effect c call⟩
  · exact ⟨rfl, rfl⟩

end Reckoner.Calculation
