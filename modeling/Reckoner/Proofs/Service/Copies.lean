import Reckoner.Proofs.Service.Deeds
import Reckoner.Proofs.Service.Holdings

/-!
# Copies

Whatever a worker has in hand or tells is a copy of a calculation that it received: it has the same
number, text and time of creation. `Shift.copies` says so, and `Shift.verdicts` that its end is what
the text comes to, if the pacer does not panic. The listener passes everything on.
-/

namespace Reckoner

/-- What no step of a calculation changes. -/
def Calculation.identity (c : Calculation) : Option Calculation.Id × String × Instant :=
  (c.id, c.text, c.createdAt)

namespace Service

variable {k : Collaborators} {s t : Service} {n : Nat} {table : CostTable} {store : Store}
variable {actions : List Action} {stage : Stage} {view : WorkerView} {w : Worker}

theorem identity_ended (c : Calculation) (time : Instant) (outcome : Except Error Float) :
    (ended c time outcome).identity = c.identity := by
  cases outcome <;> rfl

/-! ### A single step -/

theorem WorkerStep.copies (step : WorkerStep k s view stage t w) :
    (∀ d ∈ w.stage.held, ∃ c ∈ stage.held, d.identity = c.identity) ∧
      ∀ m ∈ toldSince s t, m.occasion ≠ .created ∧ m.calculation.status ≠ .created ∧
        ∃ c ∈ stage.held, m.calculation.identity = c.identity := by
  have quiet : ∀ {u : Service} {P : Notice → Prop}, u.notices = s.notices →
      ∀ m ∈ toldSince s u, P m := by
    intro u P same
    rw [toldSince_eq_nil same]
    exact List.forall_mem_nil _
  have news : ∀ {u : Service} {m : Notice} {P : Notice → Prop}, u.notices = m :: s.notices → P m →
      ∀ m ∈ toldSince s u, P m := by
    intro u m P grown so
    rw [toldSince_eq_singleton grown]
    exact List.forall_mem_singleton.2 so
  cases step with
  | left | released => exact ⟨List.forall_mem_nil _, quiet rfl⟩
  | shown | moved | finished | paused | panicked | resumed =>
    exact ⟨fun d member => ⟨d, member, rfl⟩, quiet rfl⟩
  | began =>
    exact ⟨by simp [Stage.held, Calculation.identity], news rfl ⟨by simp, by simp, _, .head _, rfl⟩⟩
  | @concluded c outcome =>
    refine ⟨List.forall_mem_nil _, news rfl ⟨by simp, ?_, c, .head _, identity_ended _ _ _⟩⟩
    cases outcome <;> simp [Service.ended, failed]
  | recovered =>
    exact ⟨List.forall_mem_nil _, news rfl ⟨by simp, by simp [failed], _, .head _, rfl⟩⟩

/-- What is still to come of a calculation in hand is what its text comes to. -/
def Stage.Right : Stage → Prop
  | .evaluating c e | .pausing c e => e.outlook.2 = (prospect c.text).2
  | .concluding c outcome => outcome = (prospect c.text).2
  | .recovering _ => False
  | .waiting | .received _ | .begun _ | .releasing | .exited | .lost => True

/-- The calculation has ended with what its text comes to. -/
def Fulfilled (c : Calculation) : Prop :=
  c.isTerminal = true → (c.status, c.result) = verdict (prospect c.text).2

theorem fulfilled_ended {c : Calculation} {outcome : Except Error Float}
    (right : outcome = (prospect c.text).2) (time : Instant) :
    Fulfilled (ended c time outcome) := by
  cases outcome with
  | ok x | error e =>
    intro _
    simp only [ended, failed, verdict, ← right]

theorem WorkerStep.right (step : WorkerStep k s view stage t w) (calm : k.Calm)
    (right : stage.Right) :
    w.stage.Right ∧ ∀ m ∈ toldSince s t, Fulfilled m.calculation := by
  have quiet : ∀ {u : Service}, u.notices = s.notices →
      ∀ m ∈ toldSince s u, Fulfilled m.calculation := by
    intro u same
    rw [toldSince_eq_nil same]
    exact List.forall_mem_nil _
  cases step with
  | left | released | shown => exact ⟨trivial, quiet rfl⟩
  | @began c f parsed =>
    refine ⟨?_, ?_⟩
    · show (Evaluation.start f).outlook.2 = (prospect c.text).2
      rw [Evaluation.outlook_start, prospect, parsed]
    · rw [toldSince_eq_singleton rfl]
      refine List.forall_mem_singleton.2 fun terminal => ?_
      cases terminal
  | moved step =>
    exact ⟨by simpa [Stage.Right, Evaluation.outlook_running step] using right, quiet rfl⟩
  | finished step =>
    exact ⟨by simpa [Stage.Right, Evaluation.outlook_finished step] using right, quiet rfl⟩
  | paused step =>
    exact ⟨by simpa [Stage.Right, Evaluation.outlook_pausing step] using right, quiet rfl⟩
  | panicked _ panic =>
    rw [calm] at panic
    cases panic
  | resumed => exact ⟨right, quiet rfl⟩
  | concluded =>
    refine ⟨trivial, ?_⟩
    rw [toldSince_eq_singleton rfl]
    exact List.forall_mem_singleton.2 (fulfilled_ended right _)
  | recovered => exact right.elim

/-! ### A shift -/

namespace Shift

theorem sound (h : Shift k n table store actions s) (forwards : k.Forwards)
    (usual : ∀ a ∈ actions, a.Usual) : s.Sound := by
  refine h.trace (P := fun actions s => (∀ a ∈ actions, a.Usual) → s.Sound)
    (fun _ => sound_opened h.manned table store) ?_ usual
  intro actions s t a _ before _ happened usual
  obtain ⟨earlier, last⟩ := List.forall_mem_append.1 usual
  have sound := before earlier
  exact (step_cases forwards sound (last a (.head _)) happened).sound sound

/-- What every step of a worker keeps, in view of what was received, holds of all workers and of all
that they told. -/
theorem work {P : List (Calculation × Nat) → Nat → Stage → Prop}
    {Q : List (Calculation × Nat) → Notice × Nat → Prop} (h : Shift k n table store actions s)
    (forwards : k.Forwards) (usual : ∀ a ∈ actions, a.Usual)
    (grows : ∀ {received more}, (∀ j stage, P received j stage → P (received ++ more) j stage) ∧
      ∀ r, Q received r → Q (received ++ more) r)
    (starts : ∀ j, P [] j .waiting)
    (takes : ∀ received j c, P (received ++ [(c, j)]) j (.received c))
    (goes : ∀ {s t received j view stage w}, WorkerStep k s view stage t w → P received j stage →
      P received j w.stage ∧ ∀ m ∈ toldSince s t, Q received (m, j)) :
    (∀ j w, s.workers[j]? = some w → P h.received j w.stage) ∧
      ∀ r ∈ h.reported, Q h.received r := by
  refine h.trace (P := fun actions s => (∀ a ∈ actions, a.Usual) →
    (∀ j w, s.workers[j]? = some w → P (receipts k (opened n table store) actions) j w.stage) ∧
      ∀ r ∈ reports k (opened n table store) actions,
        Q (receipts k (opened n table store) actions) r) ?_ ?_ usual
  · intro _
    refine ⟨fun j w here => ?_, List.forall_mem_nil _⟩
    obtain ⟨i, _, rfl⟩ := List.mem_map.1 (List.mem_of_getElem? here)
    exact starts j
  · intro actions s t a h before _ happened usual
    obtain ⟨earlier, last⟩ := List.forall_mem_append.1 usual
    have step := step_cases forwards (h.sound forwards earlier) (last a (.head _)) happened
    obtain ⟨hands, told⟩ := before earlier
    rw [receipts_concat h.run happened, reports_concat h.run happened]
    have told : ∀ r ∈ reports k (opened n table store) actions,
        Q (receipts k (opened n table store) actions ++ s.receipt a) r :=
      fun r member => grows.2 r (told r member)
    have hands : ∀ j w, s.workers[j]? = some w →
        P (receipts k (opened n table store) actions ++ s.receipt a) j w.stage :=
      fun j w here => grows.1 j w.stage (hands j w here)
    cases step with
    | @worker i w w' u here step =>
      obtain ⟨hand, news⟩ := goes step (hands i w here)
      refine ⟨fun j v there => ?_, List.forall_mem_append.2 ⟨told, fun r member => ?_⟩⟩
      · by_cases same : i = j
        · subst same
          rw [getElem?_set_of_getElem? here] at there
          cases there
          exact hand
        · rw [List.getElem?_set_ne same] at there
          exact hands j v there
      · obtain ⟨m, listed, rfl⟩ := List.mem_map.1 member
        exact news m listed
    | @handedOver i l c next view offering waiting =>
      refine ⟨fun j v there => ?_, List.forall_mem_append.2 ⟨told, List.forall_mem_nil _⟩⟩
      by_cases same : l = j
      · subst same
        rw [getElem?_set_of_getElem? waiting] at there
        cases there
        simpa [receipt, offering] using takes _ l c
      · rw [List.getElem?_set_ne same] at there
        exact hands j v there
    | caller | dropped | called | repriced =>
      exact ⟨hands, List.forall_mem_append.2 ⟨told, List.forall_mem_nil _⟩⟩

theorem copies (h : Shift k n table store actions s) (forwards : k.Forwards)
    (usual : ∀ a ∈ actions, a.Usual) : ∀ r ∈ h.reported, r.1.occasion ≠ .created ∧
      r.1.calculation.status ≠ .created ∧
        ∃ c, (c, r.2) ∈ h.received ∧ r.1.calculation.identity = c.identity := by
  refine (h.work (P := fun received j stage => ∀ d ∈ stage.held,
      ∃ c, (c, j) ∈ received ∧ d.identity = c.identity)
    (Q := fun received r => r.1.occasion ≠ .created ∧ r.1.calculation.status ≠ .created ∧
      ∃ c, (c, r.2) ∈ received ∧ r.1.calculation.identity = c.identity)
    forwards usual ?_ ?_ ?_ ?_).2
  · intro received more
    refine ⟨fun j stage hand d member => ?_, fun r told => ?_⟩
    · obtain ⟨c, taken, same⟩ := hand d member
      exact ⟨c, List.mem_append_left _ taken, same⟩
    · obtain ⟨later, begun, c, taken, same⟩ := told
      exact ⟨later, begun, c, List.mem_append_left _ taken, same⟩
  · exact fun _ => List.forall_mem_nil _
  · intro received j c
    exact List.forall_mem_singleton.2 ⟨c, List.mem_append_right _ (.head _), rfl⟩
  · intro s t received j view stage w step hand
    obtain ⟨held, told⟩ := step.copies
    refine ⟨fun d member => ?_, fun m member => ?_⟩
    · obtain ⟨c, present, same⟩ := held d member
      obtain ⟨e, taken, equal⟩ := hand c present
      exact ⟨e, taken, same.trans equal⟩
    · obtain ⟨later, begun, c, present, same⟩ := told m member
      obtain ⟨e, taken, equal⟩ := hand c present
      exact ⟨later, begun, e, taken, same.trans equal⟩

theorem verdicts (h : Shift k n table store actions s) (forwards : k.Forwards) (calm : k.Calm)
    (usual : ∀ a ∈ actions, a.Usual) : ∀ r ∈ h.reported, Fulfilled r.1.calculation :=
  (h.work (P := fun _ _ stage => stage.Right) (Q := fun _ r => Fulfilled r.1.calculation) forwards
    usual ⟨fun _ _ right => right, fun _ told => told⟩ (fun _ => trivial) (fun _ _ _ => trivial)
    fun step right => step.right calm right).2

end Shift

end Service

end Reckoner
