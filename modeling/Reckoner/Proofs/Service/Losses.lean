import Reckoner.Proofs.Service.Duties
import Reckoner.Proofs.Service.Schedules
import Reckoner.Proofs.Service.Work

/-!
# Losses

What panics of the pacer and the listener do to the workers. A worker catches a panic, tells that its
calculation failed and goes back to the rendezvous; it is lost if the listener panics again at that
news. `Shift.withstands` says that this is the only way to lose one, that all others come back and
that nobody is refused as long as one is left. `lone_worker_lost` is a shift in which the only one is
lost.
-/

namespace Reckoner

namespace Service

variable {k : Collaborators} {s t : Service} {n : Nat} {table : CostTable} {store : Store}

namespace Worker

variable {w : Worker}

def isLost (w : Worker) : Bool :=
  match w.stage with
  | .lost => true
  | _ => false

theorem isLost_iff : w.isLost = true ↔ w.stage.standing = .lost := by
  obtain ⟨stage, view⟩ := w
  cases stage with
  | recovering c =>
    rcases standing_recovering c with same | same <;> rw [same] <;> simp [isLost]
  | _ => simp [isLost, Stage.standing]

theorem isLost_eq_false_iff : w.isLost = false ↔ w.stage.standing ≠ .lost := by
  rw [← Bool.not_eq_true, isLost_iff]

theorem gone_of_work {stage : Stage} (nothing : stage.work = 0) :
    stage.standing = .left ∨ stage.standing = .lost := by
  cases stage with
  | exited => exact .inl rfl
  | lost => exact .inr rfl
  | received c | begun c =>
    have enough := eleven_le_planWork c
    simp only [Stage.work] at nothing
    omega
  | _ => cases nothing

theorem isWaiting_iff : w.isWaiting = true ↔ w.stage.standing = .resting := by
  rw [standing_eq_resting]
  obtain ⟨stage, view⟩ := w
  cases stage <;> simp [isWaiting]

def hasReceived (w : Worker) : Bool :=
  match w.stage with
  | .received _ => true
  | _ => false

theorem stage_of_hasReceived (h : w.hasReceived = true) : ∃ c, w.stage = .received c := by
  obtain ⟨stage, view⟩ := w
  cases stage with
  | received c => exact ⟨c, rfl⟩
  | _ => cases h

theorem isGone_iff : w.isGone = true ↔ w.stage.standing = .left ∨ w.stage.standing = .lost := by
  obtain ⟨stage, view⟩ := w
  cases stage with
  | recovering c =>
    rcases standing_recovering c with same | same <;> rw [same] <;> simp [isGone]
  | _ => simp [isGone, Stage.standing]

end Worker

/-- Whether the caller was told that no worker takes its calculation. -/
def Caller.isRefused : Caller → Bool
  | .done (.refused .poolUnavailable) => true
  | _ => false

theorem Caller.eq_of_isRefused {c : Caller} (h : c.isRefused = true) :
    c = .done (.refused .poolUnavailable) := by
  unfold isRefused at h
  split at h
  · rfl
  · cases h

/-! ### Counting -/

/-- How often the listener panicked while it was told that a panic had ended a calculation. -/
def fatalities (k : Collaborators) : List Notice → Nat
  | [] => 0
  | m :: earlier => fatalities k earlier + (overwhelms k earlier.length m).toNat

theorem fatalities_append_of_outside {told earlier : List Notice} (outside : ∀ m ∈ told, m.Outside) :
    fatalities k (told ++ earlier) = fatalities k earlier := by
  induction told with
  | nil => rfl
  | cons m rest ih =>
    rw [List.cons_append, fatalities, overwhelms_eq_false (outside m (.head _)).calm]
    exact ih fun m member => outside m (.tail _ member)

theorem fatalities_le_append (told earlier : List Notice) :
    fatalities k earlier ≤ fatalities k (told ++ earlier) := by
  induction told with
  | nil => exact Nat.le_refl _
  | cons m rest ih => exact Nat.le_trans ih (Nat.le_add_right _ _)

theorem WorkerTurn.losses {view view' : WorkerView} {before after : Standing}
    (turn : WorkerTurn k s t view before after view') : before ≠ .lost ∧
      (after ≠ .lost ∧ fatalities k t.notices = fatalities k s.notices ∨
        after = .lost ∧ fatalities k t.notices = fatalities k s.notices + 1) := by
  cases turn with
  | left quiet | shown quiet | going quiet | excused quiet | released quiet =>
    exact ⟨nofun, .inl ⟨nofun, congrArg (fatalities k) quiet.notices⟩⟩
  | @begun c told =>
    have calm : overwhelms k s.notices.length ⟨.changed, { c with status := .calculating }⟩ = false :=
      overwhelms_eq_false nofun
    refine ⟨nofun, .inl ⟨nofun, ?_⟩⟩
    rw [told.notices, List.singleton_append, fatalities, calm]
    rfl
  | ended told _ harmless =>
    refine ⟨nofun, .inl ⟨nofun, ?_⟩⟩
    rw [told.notices, List.singleton_append, fatalities, harmless]
    rfl
  | lost told _ fatal =>
    refine ⟨nofun, .inr ⟨rfl, ?_⟩⟩
    rw [told.notices, List.singleton_append, fatalities, fatal]
    rfl

theorem countP_isLost_set {l : List Worker} {i : Nat} {w w' : Worker} (here : l[i]? = some w)
    (alive : w.isLost = false) :
    (l.set i w').countP Worker.isLost = l.countP Worker.isLost + w'.isLost.toNat := by
  obtain ⟨inside, rfl⟩ := List.getElem?_eq_some_iff.1 here
  rw [List.countP_set inside, alive]
  cases w'.isLost <;> rfl

theorem ActionTurn.losses {a : Action} (turn : ActionTurn k s a t)
    (h : s.workers.countP Worker.isLost = fatalities k s.notices) :
    t.workers.countP Worker.isLost = fatalities k t.notices := by
  cases turn with
  | @worker i w w' u here turn =>
    obtain ⟨alive, rest⟩ := turn.losses
    rw [countP_isLost_set here (Worker.isLost_eq_false_iff.2 alive), h]
    rcases rest with ⟨alive', same⟩ | ⟨lost, same⟩
    · rw [Worker.isLost_eq_false_iff.2 alive', same]
      rfl
    · rw [Worker.isLost_iff.2 lost, same]
      rfl
  | caller _ turn =>
    obtain ⟨workers, _, told, notices, outside⟩ := turn.frame
    dsimp only
    rw [workers, notices, fatalities_append_of_outside outside, h]
  | handedOver _ waiting =>
    rw [countP_isLost_set waiting rfl, h]
    rfl
  | used | dropped | called | repriced => exact h

theorem ActionTurn.fatalities_le {a : Action} (turn : ActionTurn k s a t) :
    fatalities k s.notices ≤ fatalities k t.notices := by
  obtain ⟨told, same⟩ := turn.notices
  rw [same]
  exact fatalities_le_append told _

/-! ### Who stays -/

/-- Along the actions a worker takes the calculation that a caller offers. -/
def HandsOver (k : Collaborators) (s : Service) (actions : List Action) (i : Nat) (c : Calculation)
    (next : Then) : Prop :=
  ∃ m u j, s.run k (actions.take m) = some u ∧ u.callers[i]? = some (.offer c next) ∧
    actions[m]? = some (.handOver i j)

theorem HandsOver.cons {a : Action} {rest : List Action} {i : Nat} {c : Calculation} {next : Then}
    (h : HandsOver k t rest i c next) (happened : s.step k a = some t) :
    HandsOver k s (a :: rest) i c next := by
  obtain ⟨m, u, j, run, offering, meets⟩ := h
  refine ⟨m + 1, u, j, ?_, offering, meets⟩
  rw [List.take_succ_cons, run_cons, happened, Option.bind_some, run]

namespace Shift

variable {actions more : List Action}

theorem losses (h : Shift k n table store actions s) :
    s.workers.countP Worker.isLost = fatalities k s.notices :=
  h.keeps (P := fun s _ _ => s.workers.countP Worker.isLost = fatalities k s.notices)
    (by simp [opened, fatalities, Worker.idle, Worker.isLost, List.countP_eq_zero])
    fun _ before turn => turn.losses before

theorem exists_alive (h : Shift k n table store actions s) (few : fatalities k s.notices < n) :
    ∃ w ∈ s.workers, w.stage.standing ≠ .lost := by
  -- Otherwise there are as many losses as workers, and each of them is one of the fatalities.
  by_contra none
  have all : ∀ w ∈ s.workers, w.isLost = true := by
    intro w member
    by_contra alive
    exact none ⟨w, member, Worker.isLost_iff.not.1 alive⟩
  have count := List.countP_eq_length.2 all
  rw [h.losses, h.length_workers] at count
  omega

/-- Unless all workers are lost, some worker stays in the pool while the intake is open or a caller
holds a handoff. -/
theorem staffed (h : Shift k n table store actions s) (few : fatalities k s.notices < n)
    (needed : s.isOpen = true ∨ ∃ c ∈ s.callers, c.holdsHandoff = true) :
    s.workers.all Worker.isGone = false := by
  obtain ⟨w, member, alive⟩ := h.exists_alive few
  refine List.all_eq_false.2 ⟨w, member, fun gone => ?_⟩
  have left := (Worker.isGone_iff.1 gone).resolve_right alive
  rcases needed with isOpen | ⟨c, caller, holds⟩
  · rw [(h.orderly.loyal w member left).1] at isOpen
    cases isOpen
  · exact h.orderly.stays caller holds member left

theorem served (h : Shift k n table store actions s) : s.isOpen = true → fatalities k s.notices < n →
    Caller.done (.refused .poolUnavailable) ∉ s.callers := by
  refine h.induct (P := fun s => s.isOpen = true → fatalities k s.notices < n →
    Caller.done (.refused .poolUnavailable) ∉ s.callers) (by simp [opened]) ?_
  intro s t a actions h before turn isOpen few member
  have isOpen : s.isOpen = true := by
    by_contra closed
    rw [turn.intake (Bool.eq_false_iff.2 closed)] at isOpen
    cases isOpen
  have few := Nat.lt_of_le_of_lt turn.fatalities_le few
  rcases turn.caller_cases member with old | ⟨c, own, _, _, turn⟩ | ⟨c, next, _, same⟩ |
    ⟨_, _, same⟩ | same | call
  · exact before isOpen few old
  · rcases turn.refusal rfl with closed | gone | ⟨d, rfl⟩
    · rw [isOpen] at closed
      cases closed
    · rw [h.staffed few (.inl isOpen)] at gone
      cases gone
    · rw [h.orderly.rejecting d own] at isOpen
      cases isOpen
  · cases next <;> cases same
  · cases same
  · cases same
  · cases call

theorem fatalities_le (h : Shift k n table store actions s) (permitted : ∀ a ∈ more, a.Permitted)
    (run : s.run k more = some t) : fatalities k s.notices ≤ fatalities k t.notices :=
  h.follow (P := fun u => fatalities k s.notices ≤ fatalities k u.notices) (Nat.le_refl _)
    (fun _ before turn => Nat.le_trans before turn.fatalities_le) permitted run

/-- A caller that uses a handoff for a queued calculation waits until a worker takes it, as long as
one is left. -/
theorem handsOver (h : Shift k n table store actions s) {i : Nat} {c : Calculation} {next : Then}
    (queued : c.status = .queued)
    (here : s.callers[i]? = some (.send c next) ∨ s.callers[i]? = some (.offer c next))
    (permitted : ∀ a ∈ more, a.Permitted) (run : s.run k more = some t)
    (few : fatalities k t.notices < n) :
    (t.callers[i]? = some (.send c next) ∨ t.callers[i]? = some (.offer c next)) ∨
      HandsOver k s more i c next := by
  -- On the actions. The first one leaves the caller where it is, lets it go from `send` to `offer`,
  -- or is the handover itself: at `offer` only a pool without workers would turn it away.
  induction more generalizing s actions with
  | nil =>
    cases run
    exact .inl here
  | cons a rest ih =>
    have whole := Nat.lt_of_le_of_lt (h.fatalities_le permitted run) few
    rw [run_cons, Option.bind_eq_some_iff] at run
    obtain ⟨u, happened, run⟩ := run
    have turn := step_turn h.orderly (permitted a (.head _)) happened
    have later := fun there => (ih (h.step (permitted a (.head _)) happened) there
      (fun b member => permitted b (.tail _ member)) run).imp id (·.cons happened)
    rcases here with here | here
    · rcases turn.caller_at here with same | ⟨_, c', _, own, there⟩ | ⟨_, _, _, _, same, _⟩ | same
      · exact later (.inl same)
      · cases own with
        | sent => exact later (.inr there)
        | declined _ other => exact (other queued).elim
        | unwound tells => cases tells
      · cases same
      · cases same
    · rcases turn.caller_at here with same | ⟨_, c', _, own, there⟩ |
        ⟨j, d, next', rfl, same, _⟩ | same
      · exact later (.inr same)
      · cases own with
        | stranded _ gone =>
          rw [h.staffed whole (.inr ⟨_, List.mem_of_getElem? here, rfl⟩)] at gone
          cases gone
        | unwound tells => cases tells
      · cases same
        exact .inr ⟨0, s, j, rfl, here, rfl⟩
      · cases same

theorem nobody_offers (h : Shift k n table store actions s) (few : fatalities k s.notices < n)
    (quiescent : Quiescent k s) (c : Calculation) (next : Then) :
    Caller.offer c next ∉ s.callers := by
  intro member
  exact quiescent.nobody_offers (h.staffed few (.inr ⟨_, member, rfl⟩)) c next member

theorem nobody_sends (quiescent : Quiescent k s) (c : Calculation) (next : Then) :
    Caller.send c next ∉ s.callers := by
  intro member
  obtain ⟨i, here⟩ := List.mem_iff_getElem?.1 member
  have stuck := quiescent.callers i
  simp [Service.step, here, stepCaller] at stuck

theorem idle_of_waiting (h : Shift k n table store actions s) {j : Nat} {w : Worker}
    (here : s.workers[j]? = some w) (waiting : w.stage = .waiting) : w = Worker.idle j := by
  have resting := ((h.dutiful j w here).of_rest (.inl (standing_eq_resting.2 waiting))).1
  obtain ⟨stage, view⟩ := w
  cases waiting
  cases resting
  rfl

/-- A worker that is lost has been so before, or the listener panicked at such news meanwhile. -/
theorem fatalities_lt (h : Shift k n table store actions s) {j : Nat} {w w' : Worker}
    (here : s.workers[j]? = some w) (alive : w.isLost = false)
    (permitted : ∀ a ∈ more, a.Permitted) (run : s.run k more = some t)
    (there : t.workers[j]? = some w') (lost : w'.isLost = true) :
    fatalities k s.notices < fatalities k t.notices := by
  -- `fatalities` can only grow, so it is enough to look at the step at which the worker is lost.
  have kept := h.follow (P := fun u => fatalities k s.notices ≤ fatalities k u.notices ∧
    ∃ v, u.workers[j]? = some v ∧
      (v.isLost = true → fatalities k s.notices < fatalities k u.notices))
    ⟨Nat.le_refl _, w, here, by simp [alive]⟩ ?_ permitted run
  · obtain ⟨_, v, present, less⟩ := kept
    cases present.symm.trans there
    exact less lost
  · rintro u u' a actions _ ⟨before, v, present, less⟩ turn
    have after := Nat.le_trans before turn.fatalities_le
    refine ⟨after, ?_⟩
    rcases turn.worker_at present with same | ⟨_, u'', v', notices, there, own⟩ |
      ⟨_, c, _, _, _, _, there⟩
    · exact ⟨v, same, fun lost => Nat.lt_of_lt_of_le (less lost) turn.fatalities_le⟩
    · refine ⟨v', there, fun lost => ?_⟩
      obtain ⟨_, ⟨alive', _⟩ | ⟨_, more⟩⟩ := own.losses
      · exact (alive' (Worker.isLost_iff.1 lost)).elim
      · rw [notices] at more
        omega
    · exact ⟨_, there, nofun⟩

/-- A worker that received a calculation is back at the rendezvous after so many steps of its own,
shown as idle, or it is lost. -/
theorem returns (h : Shift k n table store actions s) {j : Nat} {c : Calculation}
    {view : WorkerView} (here : s.workers[j]? = some ⟨.received c, view⟩)
    (permitted : ∀ a ∈ more, a.Permitted) (run : s.run k more = some t)
    (steps : planWork c ≤ more.countP (Action.isTurnOf j)) :
    (∃ m u, s.run k (more.take m) = some u ∧ u.workers[j]? = some (Worker.idle j)) ∨
      ∃ w, t.workers[j]? = some w ∧ w.isLost = true ∧
        fatalities k s.notices < fatalities k t.notices := by
  rcases h.orderly.ownSteps_add_work_le here nofun permitted run with
    ⟨m, u, v, ran, back, waiting⟩ | ⟨v, there, stays, bound⟩
  · have reached := h.extend (fun a member => permitted a (List.mem_of_mem_take member)) ran
    rw [reached.idle_of_waiting back waiting] at back
    exact .inl ⟨m, u, ran, back⟩
  · have bound : more.countP (Action.isTurnOf j) + v.stage.work ≤ planWork c := bound
    have nothing : v.stage.work = 0 := by omega
    have lost := Worker.isLost_iff.2 ((Worker.gone_of_work nothing).resolve_left stays)
    exact .inr ⟨v, there, lost, h.fatalities_lt here rfl permitted run there lost⟩

end Shift

/-! ### Panics -/

/-- What panics do to a service with so many workers. -/
structure Withstands (k : Collaborators) (n : Nat) (s : Service) : Prop where
  /-- A worker is lost for each panic of the listener at the news that a panic ended a calculation,
  and for nothing else. -/
  losses : s.workers.countP Worker.isLost = fatalities k s.notices
  /-- A worker that received a calculation is idle at the rendezvous after so many steps of its own,
  or the listener has panicked at such news meanwhile and the worker is lost. -/
  returns : ∀ j c view, s.workers[j]? = some ⟨.received c, view⟩ →
    ∀ more t, (∀ a ∈ more, a.Permitted) → s.run k more = some t →
    planWork c ≤ more.countP (Action.isTurnOf j) →
    (∃ m u, s.run k (more.take m) = some u ∧ u.workers[j]? = some (Worker.idle j)) ∨
      ∃ w, t.workers[j]? = some w ∧ w.isLost = true ∧
        fatalities k s.notices < fatalities k t.notices
  /-- A worker with a calculation can always go on. -/
  acts : ∀ j w, s.workers[j]? = some w →
    w.isWaiting = true ∨ w.isGone = true ∨ (s.step k (.worker j)).isSome = true
  /-- An idle worker takes whatever is offered. -/
  takes : ∀ i j c next, s.callers[i]? = some (.offer c next) → s.workers[j]? = some (Worker.idle j) →
    (s.step k (.handOver i j)).isSome = true
  /-- Nobody is refused while the intake is open and a worker is left. -/
  served : s.isOpen = true → fatalities k s.notices < n →
    Caller.done (.refused .poolUnavailable) ∉ s.callers
  /-- When everything has come to rest and a worker is left, whoever used a handoff for a queued
  calculation has handed it over. -/
  met : ∀ i c next, s.callers[i]? = some (.send c next) → c.status = .queued →
    ∀ more t, (∀ a ∈ more, a.Permitted) → s.run k more = some t → fatalities k t.notices < n →
    Quiescent k t → HandsOver k s more i c next

theorem isSome_step_worker {j : Nat} {w : Worker} (here : s.workers[j]? = some w) :
    w.isWaiting = true ∨ w.isGone = true ∨ (s.step k (.worker j)).isSome = true := by
  obtain ⟨stage, view⟩ := w
  cases stage with
  | waiting => exact .inl rfl
  | exited | lost => exact .inr (.inl rfl)
  | _ => exact .inr (.inr (by simp [step, here, stepWorker]))

/-- A worker is only lost by a panic of the listener at the news that a panic ended a calculation.
All others come back from each calculation, and as long as one is left nobody is refused at an open
intake or waits for ever. -/
theorem Shift.withstands {actions : List Action} (h : Shift k n table store actions s) :
    Withstands k n s where
  losses := h.losses
  returns := fun _ _ _ here _ _ permitted run steps => h.returns here permitted run steps
  acts := fun _ _ here => isSome_step_worker here
  takes := by
    intro i j c next offering resting
    simp [Service.step, offering, resting, Worker.idle]
  served := h.served
  met := by
    intro i c next here queued more t permitted run few quiescent
    have reached := h.extend permitted run
    rcases h.handsOver queued (.inl here) permitted run few with (sending | offering) | met
    · exact (Shift.nobody_sends quiescent c next (List.mem_of_getElem? sending)).elim
    · exact (reached.nobody_offers few quiescent c next (List.mem_of_getElem? offering)).elim
    · exact met

/-- A pacer that panics at the first pause, and a listener that panics when it hears of that. -/
def overwhelmed : Collaborators where
  listener := fun _ m => ⟨true, m.calculation.status = .failed panicMessage⟩
  pacer := fun n => ⟨none, n = 1⟩
  clock := fun _ => default

/-- A sum is submitted, handed over to the first worker and brought to its end. -/
def lossActions : List Action :=
  .call (.submit "1+1") :: List.replicate 5 (.caller 0) ++ .handOver 0 0 ::
    List.replicate 8 (.worker 0)

/-- One worker is lost with the sum, the other one receives a product. -/
def sparedActions : List Action :=
  lossActions ++ .call (.submit "2*5") :: List.replicate 5 (.caller 1) ++ [.handOver 1 1]

theorem sparedActions_withstands :
    ∃ s, Shift overwhelmed 2 .zero .empty sparedActions s ∧ fatalities overwhelmed s.notices = 1 ∧
      (∃ c view, s.workers[1]? = some ⟨.received c, view⟩) ∧ Withstands overwhelmed 2 s := by
  have ran : ((opened 2 .zero .empty).run overwhelmed sparedActions).any (fun s =>
      decide (fatalities overwhelmed s.notices = 1) && s.workers[1]?.any Worker.hasReceived) =
      true := by decide +kernel
  obtain ⟨s, run, found⟩ := (Option.any_eq_true _ _).1 ran
  rw [Bool.and_eq_true, decide_eq_true_eq] at found
  obtain ⟨w, here, received⟩ := (Option.any_eq_true _ _).1 found.2
  obtain ⟨c, stage⟩ := Worker.stage_of_hasReceived received
  have shift : Shift overwhelmed 2 .zero .empty sparedActions s := ⟨by decide, by decide, run⟩
  exact ⟨s, shift, found.1, ⟨c, w.view, stage ▸ here⟩, Shift.withstands shift⟩

/-- The only worker is lost with the sum, and what is submitted next is refused although the intake
is open; its record stays queued. -/
theorem lone_worker_lost :
    ∃ s, Shift overwhelmed 1 .zero .empty
        (lossActions ++ .call (.submit "2*5") :: List.replicate 6 (.caller 1)) s ∧
      s.isOpen = true ∧ s.workers.all Worker.isLost = true ∧
      Caller.done (.refused .poolUnavailable) ∈ s.callers ∧
      (s.store.find? 2).map (fun c => (c.text, c.status)) = some ("2*5", .queued) := by
  have ran : ((opened 1 .zero .empty).run overwhelmed
      (lossActions ++ .call (.submit "2*5") :: List.replicate 6 (.caller 1))).any (fun s =>
        s.isOpen && s.workers.all Worker.isLost && s.callers.any Caller.isRefused &&
        decide ((s.store.find? 2).map (fun c => (c.text, c.status)) = some ("2*5", .queued))) =
      true := by decide +kernel
  obtain ⟨s, run, found⟩ := (Option.any_eq_true _ _).1 ran
  simp only [Bool.and_eq_true, decide_eq_true_eq] at found
  obtain ⟨⟨⟨isOpen, lost⟩, refused⟩, queued⟩ := found
  obtain ⟨c, member, refused⟩ := List.any_eq_true.1 refused
  exact ⟨s, ⟨by decide, by decide, run⟩, isOpen, lost, Caller.eq_of_isRefused refused ▸ member,
    queued⟩

end Service

end Reckoner
