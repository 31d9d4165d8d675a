import Reckoner.Proofs.Service.Losses

/-!
# Closing

What holds when the intake is closed in the middle of the work, if the listener does not panic. Each
handoff that was reserved before stays good, the call that closed the intake returns when the workers
have left, and whoever asks for a handoff later is refused. `Shift.closes` says so of every moment of
a shift and of everything that may follow.
-/

namespace Reckoner

def Collaborators.Steady (k : Collaborators) : Prop :=
  ∀ n m, (k.listener n m).panics = false

namespace Service

variable {k : Collaborators} {s t : Service} {n : Nat} {table : CostTable} {store : Store}

theorem fatalities_eq_zero (steady : k.Steady) (notices : List Notice) :
    fatalities k notices = 0 := by
  induction notices with
  | nil => rfl
  | cons m rest ih =>
    have calm : overwhelms k rest.length m = false := by rw [overwhelms, steady, Bool.and_false]
    rw [fatalities, ih, calm]
    rfl

/-- Whether the caller still has to be given a handoff, so that a closed intake refuses it. -/
def Caller.asks : Caller → Bool
  | .submit text => isFormula text
  | .parse c => isFormula c.text
  | .reserve .. | .reject _ | .request _ | .acquire => true
  | .resume rest _ => rest.any isResumable
  | _ => false

theorem CallerTurn.asks {c c' : Caller} (turn : CallerTurn k s t c c') (steady : k.Steady)
    (closed : s.isOpen = false) (asks : c.asks = true) :
    c'.asks = true ∨ c' = .done (.refused .poolUnavailable) := by
  have shut : s.isOpen ≠ true := Bool.eq_false_iff.1 closed
  cases turn with
  | @submitted text c _ _ same =>
    rw [Caller.asks, ← same] at asks
    exact .inl asks
  | parsed | late => exact .inl rfl
  | @unparsed c d e wrong =>
    obtain ⟨f, right⟩ := isFormula_iff.1 asks
    cases wrong.symm.trans right
  | rejected | stopped | turnedAway | barred => exact .inr rfl
  | exhausted => cases asks
  | @skipped c rest count _ idle =>
    rw [Caller.asks, List.any_cons, idle, Bool.false_or] at asks
    exact .inl asks
  | reserved _ isOpen | reopening _ _ isOpen | requested _ isOpen | acquired _ isOpen =>
    exact (shut isOpen).elim
  | unwound _ _ _ panics =>
    rw [steady] at panics
    cases panics
  | _ => cases asks

theorem Quiescent.not_asks (h : Quiescent k s) {i : Nat} {c : Caller}
    (here : s.callers[i]? = some c) : c.asks = false := by
  have stuck := h.callers i
  rw [Bool.eq_false_iff]
  intro asks
  cases c with
  | submit | parse | reserve | reject | request | acquire | resume =>
    simp [step, here, stepCaller] at stuck
  | _ => cases asks

namespace Shift

variable {actions more : List Action}

/-! ### A steady listener -/

theorem not_lost (h : Shift k n table store actions s) (steady : k.Steady) {w : Worker}
    (member : w ∈ s.workers) : w.stage.standing ≠ .lost := by
  have none := h.losses
  rw [fatalities_eq_zero steady, List.countP_eq_zero] at none
  exact Worker.isLost_iff.not.1 (none w member)

/-- What was received was told as calculating and then at its end, when no worker has anything in
hand. -/
theorem reported_of_rest (h : Shift k n table store actions s) (steady : k.Steady)
    (rest : ∀ w ∈ s.workers, w.isWaiting = true ∨ w.isGone = true) (j : Nat) :
    Reported (ofWorker j h.received) (ofWorker j h.reported) := by
  cases here : s.workers[j]? with
  | none =>
    have outside : n ≤ j := by
      rw [← h.length_workers]
      exact List.getElem?_eq_none_iff.1 here
    obtain ⟨nothing, silent⟩ := h.ofWorker_outside outside
    rw [nothing, silent]
    exact .none
  | some w =>
    have member := List.mem_of_getElem? here
    have duty := h.dutiful j w here
    rcases rest w member with waiting | gone
    · exact (duty.of_rest (.inl (Worker.isWaiting_iff.1 waiting))).2
    · have left := (Worker.isGone_iff.1 gone).resolve_right (h.not_lost steady member)
      exact (duty.of_rest (.inr left)).2

theorem views_of_gone (h : Shift k n table store actions s) (steady : k.Steady)
    (gone : s.workers.all Worker.isGone = true) :
    s.views = (List.range n).map fun j => .idle (UInt64.ofNat j) := by
  refine List.ext_getElem (by simp [views, h.length_workers]) fun j inside _ => ?_
  rw [views, List.length_map] at inside
  have here := List.getElem?_eq_getElem inside
  have member := List.getElem_mem inside
  have left := (Worker.isGone_iff.1 (List.all_eq_true.1 gone _ member)).resolve_right
    (h.not_lost steady member)
  simp only [views, List.getElem_map, List.getElem_range]
  exact ((h.dutiful j _ here).of_rest (.inr left)).1

/-! ### A closed intake -/

theorem stays_closed (h : Shift k n table store actions s) (closed : s.isOpen = false)
    (permitted : ∀ a ∈ more, a.Permitted) (run : s.run k more = some t) : t.isOpen = false :=
  h.follow (P := fun u => u.isOpen = false) closed (fun _ before turn => turn.intake before)
    permitted run

/-- Workers only receive through handoffs that were reserved before. -/
theorem held_before (h : Shift k n table store actions s) (closed : s.isOpen = false)
    (permitted : ∀ a ∈ more, a.Permitted) (run : s.run k more = some t) {m i j : Nat}
    (meets : more[m]? = some (.handOver i j)) :
    ∃ c, s.callers[i]? = some c ∧ c.holdsHandoff = true := by
  -- On the actions before the handover, backwards: a handoff that is held after one of them was held
  -- before it, since the intake is closed.
  induction more generalizing s actions m with
  | nil => cases meets
  | cons a rest ih =>
    rw [run_cons, Option.bind_eq_some_iff] at run
    obtain ⟨u, happened, run⟩ := run
    have possible := permitted a (.head _)
    have turn := step_turn h.orderly possible happened
    cases m with
    | zero =>
      cases meets
      cases turn with
      | handedOver offering => exact ⟨_, offering, rfl⟩
    | succ m =>
      obtain ⟨c, there, holds⟩ := ih (h.step possible happened) (turn.intake closed)
        (fun b member => permitted b (.tail _ member)) run (by simpa using meets)
      exact turn.held_at closed there holds

/-- Whoever asks for a handoff goes on asking until it is refused. -/
theorem asks_or_refused (h : Shift k n table store actions s) (steady : k.Steady)
    (closed : s.isOpen = false) {i : Nat} {c : Caller} (here : s.callers[i]? = some c)
    (asks : c.asks = true) (permitted : ∀ a ∈ more, a.Permitted) (run : s.run k more = some t) :
    ∃ c', t.callers[i]? = some c' ∧ (c'.asks = true ∨ c' = .done (.refused .poolUnavailable)) := by
  refine (h.follow (P := fun u => u.isOpen = false ∧ ∃ c', u.callers[i]? = some c' ∧
    (c'.asks = true ∨ c' = .done (.refused .poolUnavailable))) ⟨closed, c, here, .inl asks⟩ ?_
    permitted run).2
  rintro u u' a actions _ ⟨closed, c, here, asks⟩ turn
  refine ⟨turn.intake closed, ?_⟩
  rcases turn.caller_at here with same | ⟨_, c', shut, own, there⟩ | ⟨_, d, next, _, rfl, _⟩ | rfl
  · exact ⟨c, same, asks⟩
  · refine ⟨c', there, ?_⟩
    rcases asks with asks | rfl
    · exact own.asks steady closed asks
    · cases own with
      | unwound tells => cases tells
  · rcases asks with asks | same
    · cases asks
    · cases same
  · rcases asks with asks | same
    · cases asks
    · cases same

/-! ### The call that closed the intake -/

/-- At rest the call that closed the intake has returned, unless a handoff is still held. -/
theorem hold_of_join (h : Shift k n table store actions s) (steady : k.Steady)
    (quiescent : Quiescent k s) (joining : Caller.join ∈ s.callers) :
    Caller.hold ∈ s.callers := by
  have few : fatalities k s.notices < n := by
    rw [fatalities_eq_zero steady]
    exact h.manned
  -- With no handoff left the workers would leave, and then the call would return: both are actions
  -- that could still happen.
  have held : s.hasHandoff = true := by
    by_contra unheld
    rw [Bool.not_eq_true] at unheld
    have gone : s.workers.all Worker.isGone = true := by
      refine List.all_eq_true.2 fun w member => ?_
      refine (quiescent.worker member).resolve_left fun waiting => ?_
      obtain ⟨j, here⟩ := List.mem_iff_getElem?.1 member
      have stuck := quiescent.workers j
      have waiting := standing_eq_resting.1 (Worker.isWaiting_iff.1 waiting)
      simp [Service.step, here, stepWorker, waiting, h.orderly.joining joining, unheld] at stuck
    obtain ⟨i, here⟩ := List.mem_iff_getElem?.1 joining
    have stuck := quiescent.callers i
    simp [Service.step, here, stepCaller, gone] at stuck
  obtain ⟨c, member, holds⟩ := List.any_eq_true.1 held
  obtain ⟨i, here⟩ := List.mem_iff_getElem?.1 member
  have stuck := quiescent.callers i
  cases c with
  | hold => exact member
  | offer c next => exact (h.nobody_offers few quiescent c next member).elim
  | reopen | announce | send => simp [Service.step, here, stepCaller] at stuck
  | _ => cases holds

theorem joined_of_step {i : Nat} (here : s.callers[i]? = some .join)
    (happened : s.step k (.caller i) = some t) :
    s.workers.all Worker.isGone = true ∧ t.callers[i]? = some (.done .stopped) := by
  cases happens_of_step happened with
  | caller there own =>
    cases here.symm.trans there
    simp only [stepCaller] at own
    split at own <;> cases own
    rename_i gone
    exact ⟨gone, getElem?_set_of_getElem? here⟩

theorem unheld_of_gone (h : Shift k n table store actions s) (steady : k.Steady)
    (gone : s.workers.all Worker.isGone = true) : s.hasHandoff = false := by
  by_contra held
  have few : fatalities k s.notices < n := by
    rw [fatalities_eq_zero steady]
    exact h.manned
  obtain ⟨c, member, holds⟩ := List.any_eq_true.1 (Bool.not_eq_false _ ▸ held)
  rw [h.staffed few (.inr ⟨c, member, holds⟩)] at gone
  cases gone

end Shift

/-- What closing the intake means, at one moment of a run and for everything that may follow. -/
structure Closes (k : Collaborators) (n : Nat) (s : Service) (received : List (Calculation × Nat))
    (reported : List (Notice × Nat)) : Prop where
  /-- A caller that uses a handoff for a queued calculation, before or after the closing, hands it
  over to a worker; until then it waits, and not all has come to rest. -/
  delivered : ∀ i c next, s.callers[i]? = some (.send c next) → c.status = .queued →
    ∀ (more : List Action) t, (∀ a ∈ more, a.Permitted) → s.run k more = some t →
    HandsOver k s more i c next ∨
      (t.callers[i]? = some (.send c next) ∨ t.callers[i]? = some (.offer c next)) ∧
        ¬ Quiescent k t
  /-- At rest all that was received has been told as calculating and then at its end. -/
  processed : Quiescent k s → ∀ j, Reported (ofWorker j received) (ofWorker j reported)
  /-- Without calls from outside everything comes to rest. -/
  bounded : ∀ (more : List Action) t, (∀ a ∈ more, a.isInside = true) → s.run k more = some t →
    more.length ≤ s.work
  /-- The call that closed the intake returns when no handoff is left, every calculation that was
  handed over has been told at its end and all workers are shown as idle. -/
  drained : ∀ i t, s.callers[i]? = some .join → s.step k (.caller i) = some t →
    t.callers[i]? = some (.done .stopped) ∧ s.isOpen = false ∧ s.hasHandoff = false ∧
      s.views = ((List.range n).map fun j => .idle (UInt64.ofNat j)) ∧
      ∀ j, Reported (ofWorker j received) (ofWorker j reported)
  /-- At rest it has returned, unless somebody still holds a handoff. -/
  joined : Quiescent k s → Caller.join ∈ s.callers → Caller.hold ∈ s.callers
  /-- A closed intake stays closed, and a worker only receives from a caller that held a handoff
  when it was closed. -/
  closed : s.isOpen = false →
    ∀ (more : List Action) t, (∀ a ∈ more, a.Permitted) → s.run k more = some t →
    t.isOpen = false ∧ ∀ m i j : Nat, more[m]? = some (.handOver i j) →
      ∃ c, s.callers[i]? = some c ∧ c.holdsHandoff = true
  /-- Whoever asks a closed intake for a handoff is refused; until then not all has come to rest. -/
  refused : s.isOpen = false → ∀ (i : Nat) c, s.callers[i]? = some c → c.asks = true →
    ∀ (more : List Action) t, (∀ a ∈ more, a.Permitted) → s.run k more = some t →
    t.callers[i]? = some (.done (.refused .poolUnavailable)) ∨
      (∃ c', t.callers[i]? = some c' ∧ c'.asks = true) ∧ ¬ Quiescent k t

/-- With a listener that does not panic, all handoffs reserved before the closing stay good, the
workers leave when the last one is gone, and everybody else is refused. -/
theorem Shift.closes {actions : List Action} (h : Shift k n table store actions s)
    (steady : k.Steady) : Closes k n s h.received h.reported where
  delivered := by
    intro i c next here queued more t permitted run
    have reached := h.extend permitted run
    have few : fatalities k t.notices < n := by
      rw [fatalities_eq_zero steady]
      exact h.manned
    rcases h.handsOver queued (.inl here) permitted run few with waits | met
    · refine .inr ⟨waits, fun quiescent => ?_⟩
      rcases waits with sending | offering
      · exact Shift.nobody_sends quiescent c next (List.mem_of_getElem? sending)
      · exact reached.nobody_offers few quiescent c next (List.mem_of_getElem? offering)
    · exact .inl met
  processed := fun quiescent =>
    h.reported_of_rest steady fun w member => quiescent.worker member
  bounded := by
    intro more t inside run
    have bound := h.orderly.length_add_work_le inside run
    omega
  drained := by
    intro i t here happened
    obtain ⟨gone, there⟩ := joined_of_step here happened
    exact ⟨there, h.orderly.joining (List.mem_of_getElem? here), h.unheld_of_gone steady gone,
      h.views_of_gone steady gone,
      h.reported_of_rest steady fun w member => .inr (List.all_eq_true.1 gone w member)⟩
  joined := fun quiescent joining => h.hold_of_join steady quiescent joining
  closed := fun closed more t permitted run =>
    ⟨h.stays_closed closed permitted run, fun _ _ _ meets => h.held_before closed permitted run meets⟩
  refused := by
    intro closed i c here asks more t permitted run
    obtain ⟨c', there, asks | rfl⟩ := h.asks_or_refused steady closed here asks permitted run
    · refine .inr ⟨⟨c', there, asks⟩, fun quiescent => ?_⟩
      rw [quiescent.not_asks there] at asks
      cases asks
    · exact .inl there

/-- A listener that keeps everything and a pacer that panics at the first pause. -/
def startled : Collaborators where
  listener := fun _ _ => ⟨true, false⟩
  pacer := fun n => ⟨none, n = 1⟩
  clock := fun _ => default

def Caller.sendsQueued : Caller → Bool
  | .send c _ => c.status = .queued
  | _ => false

theorem Caller.eq_of_sendsQueued {c : Caller} (h : c.sendsQueued = true) :
    ∃ d next, c = .send d next ∧ d.status = .queued := by
  cases c with
  | send d next => exact ⟨d, next, rfl, of_decide_eq_true h⟩
  | _ => cases h

def Caller.isJoining : Caller → Bool
  | .join => true
  | _ => false

theorem Caller.eq_of_isJoining {c : Caller} (h : c.isJoining = true) : c = .join := by
  cases c with
  | join => rfl
  | _ => cases h

/-- A handoff is held and a sum handed over before the intake is closed; behind that the handoff is
used for a quotient, and a product is submitted. -/
def closingActions : List Action :=
  [.call .acquire, .caller 0, .call (.submit "1+1")] ++ List.replicate 5 (.caller 1) ++
    [.handOver 1 0, .call .close, .caller 2,
      .use 0 { Calculation.new "6/3" default with
        id := some 7, plan := (Formula.parse "6/3").toOption, status := .queued },
      .call (.submit "2*5"), .caller 3]

/-- The quotient is handed over, both workers come to an end and leave, the product is refused, and
the call that closed the intake returns. -/
def closedActions : List Action :=
  [.caller 0, .handOver 0 1] ++ List.replicate 9 (.worker 0) ++ List.replicate 11 (.worker 1) ++
    List.replicate 3 (.caller 3) ++ [.worker 0, .worker 1, .caller 2]

theorem closingActions_closes :
    ∃ s, ∃ h : Shift startled 2 .zero .empty closingActions s, s.isOpen = false ∧
      (∃ c next, s.callers[0]? = some (.send c next) ∧ c.status = .queued) ∧
      s.callers[2]? = some .join ∧ (∃ c, s.callers[3]? = some c ∧ c.asks = true) ∧
      (∃ t, s.run startled closedActions = some t ∧ Quiescent startled t ∧
        t.callers[2]?.any (fun c => c.reply?.isSome) = true) ∧
      Closes startled 2 s h.received h.reported := by
  have ran : ((opened 2 .zero .empty).run startled closingActions).any (fun s =>
      !s.isOpen && s.callers[0]?.any Caller.sendsQueued && s.callers[2]?.any Caller.isJoining &&
        s.callers[3]?.any Caller.asks && (s.run startled closedActions).any fun t =>
          decide (Quiescent startled t) && t.callers[2]?.any fun c => c.reply?.isSome) = true := by
    decide +kernel
  obtain ⟨s, run, found⟩ := (Option.any_eq_true _ _).1 ran
  simp only [Bool.and_eq_true, Bool.not_eq_true'] at found
  obtain ⟨⟨⟨⟨closed, sending⟩, joining⟩, asking⟩, rest⟩ := found
  obtain ⟨t, ends, rest⟩ := (Option.any_eq_true _ _).1 rest
  rw [Bool.and_eq_true, decide_eq_true_eq] at rest
  obtain ⟨c, first, sends⟩ := (Option.any_eq_true _ _).1 sending
  obtain ⟨d, next, rfl, queued⟩ := Caller.eq_of_sendsQueued sends
  obtain ⟨c, third, joins⟩ := (Option.any_eq_true _ _).1 joining
  obtain ⟨c, fourth, asks⟩ := (Option.any_eq_true _ _).1 asking
  have shift : Shift startled 2 .zero .empty closingActions s := ⟨by decide, by decide, run⟩
  exact ⟨s, shift, closed, ⟨d, next, first, queued⟩, Caller.eq_of_isJoining joins ▸ third,
    ⟨_, fourth, asks⟩, ⟨t, ends, rest⟩, Shift.closes shift fun _ _ => rfl⟩

end Service

end Reckoner
