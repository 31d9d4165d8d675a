import Reckoner.Proofs.Service.Outcomes

/-!
# Schedules

What a batch of texts comes to does not depend on the schedule. `Batch.outcome` says so for every
run over an empty store in which nobody panics and the intake is not closed before a submission:
the records are those of the texts evaluated alone, and the log of pauses is a merge of what they
charge alone.
-/

namespace Reckoner.Service

variable {k : Collaborators} {n : Nat} {table : CostTable} {first : Store} {actions : List Action}
variable {s t : Service}

/-! ### Submissions in time -/

def Caller.isEntering : Caller → Bool
  | .submit _ | .parse _ | .reserve .. => true
  | _ => false

/-- Whenever the intake is closed, all submissions are behind it. -/
def InTime (k : Collaborators) (s : Service) (actions : List Action) : Prop :=
  ∀ m t, s.run k (actions.take m) = some t → t.isOpen = false →
    ∀ c ∈ t.callers, c.isEntering = false

theorem InTime.step {a : Action} {rest : List Action} (h : InTime k s (a :: rest))
    (happened : s.step k a = some t) : InTime k t rest := by
  intro m u ran
  refine h (m + 1) u ?_
  rw [List.take_succ_cons, run_cons, happened, Option.bind_some]
  exact ran

theorem InTime.here (h : InTime k s actions) (closed : s.isOpen = false) :
    ∀ c ∈ s.callers, c.isEntering = false :=
  h 0 s rfl closed

theorem inTime_iff : InTime k s actions ↔ ∀ m < actions.length + 1,
    (s.run k (actions.take m)).all fun t => t.isOpen || t.callers.all fun c => !c.isEntering := by
  have good : ∀ t : Service, (t.isOpen || t.callers.all fun c => !c.isEntering) = true ↔
      (t.isOpen = false → ∀ c ∈ t.callers, c.isEntering = false) := by
    intro t
    cases t.isOpen <;> simp
  constructor
  · intro h m _
    rw [Option.all_eq_true]
    exact fun t ran => (good t).2 (h m t ran)
  · intro h m t ran
    rw [List.take_eq_take_min] at ran
    have checked := h (min m actions.length) (by omega)
    rw [ran, Option.all_some] at checked
    exact (good t).1 checked

instance : Decidable (InTime k s actions) :=
  decidable_of_iff _ inTime_iff.symm

def Welcomed (s : Service) : Prop :=
  ∀ c, Caller.reject c ∉ s.callers

theorem ActionStep.welcomed {a : Action} (step : ActionStep k s a t)
    (inTime : s.isOpen = false → ∀ c ∈ s.callers, c.isEntering = false) (h : Welcomed s) :
    Welcomed t := by
  intro c member
  rcases step.caller_cases member with
    old | ⟨d, place, u, own⟩ | ⟨i, j, d, next, rfl, offering, same⟩ | dropped | called
  · exact h c old
  · cases own with
    | late closed => cases inTime closed _ place
  · cases next <;> cases same
  · cases dropped
  · exact called.elim

/-! ### One worker has one calculation -/

theorem Stage.flights_subsingleton (stage : Stage) : ∀ f ∈ stage.flights, ∀ g ∈ stage.flights,
    f = g := by
  cases stage <;> simp [Stage.flights]

theorem oneInHand_of_single (single : s.workers.length = 1) {upcoming : List String}
    {waiting : List Calculation} {received : List (Calculation × Nat)} :
    OneInHand (s.ledger upcoming waiting received) := by
  obtain ⟨w, workers⟩ := List.length_eq_one_iff.1 single
  have place : ∀ f ∈ (s.ledger upcoming waiting received).flights, f.phase.inHand = true →
      f ∈ w.stage.flights := by
    intro f member inHand
    simp only [ledger, account, workers, Multiset.mem_add, Multiset.mem_coe, List.mem_flatMap,
      List.mem_singleton, exists_eq_left] at member
    rcases member with (worker | ⟨c, _, outside⟩) | waits
    · exact worker
    · rw [Caller.not_inHand f outside] at inHand
      cases inHand
    · rw [phase_of_mem_pendingFlights waits] at inHand
      cases inHand
  intro f first g second busy busy'
  exact congrArg Flight.id
    (w.stage.flights_subsingleton f (place f first busy) g (place g second busy'))

/-! ### Runs without panics and rejections -/

/-- What every action preserves if nobody panics and all submissions are in time. -/
structure Undisturbed (k : Collaborators) (n : Nat) (first : Store) (total : Multiset String)
    (s : Service) (rest : List Action) (received : List (Calculation × Nat)) : Prop where
  going : Going first s rest received
  inTime : InTime k s rest
  welcomed : Welcomed s
  workers : s.workers.length = n
  faithful : ∃ owned, Faithful first
    (s.ledger (rest.flatMap Action.brought) (rest.flatMap Action.asked) received) owned
  accounted : Accounted total
    (s.ledger (rest.flatMap Action.brought) (rest.flatMap Action.asked) received)
  collected : Collected
    (s.ledger (rest.flatMap Action.brought) (rest.flatMap Action.asked) received)
  serial : n = 1 → Serial
    (s.ledger (rest.flatMap Action.brought) (rest.flatMap Action.asked) received)

theorem Undisturbed.step {total : Multiset String} (forwards : k.Forwards) (calm : k.Calm)
    (below : ∀ id, Resumed first id → id < first.nextId) {a : Action} {rest : List Action}
    {received : List (Calculation × Nat)}
    (h : Undisturbed k n first total s (a :: rest) received) (happened : s.step k a = some t) :
    Undisturbed k n first total t rest (received ++ s.receipt a) := by
  have going := h.going
  have step := step_cases forwards going.sound (going.calls a (.head _)).usual happened
  have move : Move False False _ _ := step.move going.sound
    (fun m panic => by rw [calm m] at panic; cases panic) (fun c member => h.welcomed c member)
    (rest.flatMap Action.brought) (rest.flatMap Action.asked) received
  obtain ⟨owned, faithful⟩ := h.faithful
  have workers := step.length_workers.trans h.workers
  exact {
    going := going.step forwards below happened
    inTime := h.inTime.step happened
    welcomed := step.welcomed h.inTime.here h.welcomed
    workers := workers
    faithful := faithful.move going.regular going.stored below move
    accounted := h.accounted.move going.stored move
    collected := h.collected.move going.regular going.stored below move
    serial := fun single => (h.serial single).move going.regular faithful
      (oneInHand_of_single (h.workers.trans single)) (oneInHand_of_single (workers.trans single))
      move }

theorem faithful_opened (upcoming : List String) (waiting : List Calculation) :
    Faithful first ((opened n table first).ledger upcoming waiting []) [] := by
  rw [ledger_opened]
  refine ⟨rfl, ?_, fun _ _ _ => rfl, fun _ _ _ told => (told rfl).elim, fun _ _ => .inr⟩
  intro f member
  refine ⟨prospect f.text, ?_, rfl⟩
  rw [phase_of_mem_pendingFlights (Multiset.mem_coe.1 member)]
  rfl

theorem collected_opened (upcoming : List String) (waiting : List Calculation) :
    Collected ((opened n table first).ledger upcoming waiting []) := by
  rw [ledger_opened]
  refine ⟨List.forall_mem_nil _, fun f member busy => ?_, fun _ _ _ _ told => (told rfl).elim⟩
  rw [phase_of_mem_pendingFlights (Multiset.mem_coe.1 member)] at busy
  cases busy

theorem serial_opened (upcoming : List String) (waiting : List Calculation) :
    Serial ((opened n table first).ledger upcoming waiting []) := by
  rw [ledger_opened]
  refine ⟨fun f member busy => ?_, fun _ => rfl⟩
  rw [phase_of_mem_pendingFlights (Multiset.mem_coe.1 member)] at busy
  cases busy

theorem Session.undisturbed (h : Session k n table first actions s) (calm : k.Calm)
    (inTime : InTime k (opened n table first) actions) :
    Undisturbed k n first (↑(actions.flatMap Action.brought) + ↑(first.all.map Calculation.text)) s
      [] (receipts k (opened n table first) actions) := by
  have below := h.resumed_below
  have start : Undisturbed k n first
      (↑(actions.flatMap Action.brought) + ↑(first.all.map Calculation.text))
      (opened n table first) actions [] := {
    going := h.start
    inTime := inTime
    welcomed := fun c member => nomatch member
    workers := by simp [opened]
    faithful := ⟨[], faithful_opened _ _⟩
    accounted := by
      rw [ledger_opened]
      rfl
    collected := collected_opened _ _
    serial := fun _ => serial_opened _ _ }
  exact run_preserves (P := Undisturbed k n first _)
    (fun before happened => before.step h.forwards calm below happened) start h.run

/-! ### Quiescence -/

/-- Neither a worker nor a caller can act, and nobody can meet at the rendezvous. -/
structure Quiescent (k : Collaborators) (s : Service) : Prop where
  workers : ∀ i, s.step k (.worker i) = none
  callers : ∀ i, s.step k (.caller i) = none
  rendezvous : ∀ i j, s.step k (.handOver i j) = none

theorem quiescent_iff : Quiescent k s ↔
    (∀ i < s.workers.length, (s.step k (.worker i)).isNone = true) ∧
    (∀ i < s.callers.length, (s.step k (.caller i)).isNone = true) ∧
    ∀ i < s.callers.length, ∀ j < s.workers.length, (s.step k (.handOver i j)).isNone = true := by
  constructor
  · intro h
    exact ⟨fun i _ => by simp [h.workers i], fun i _ => by simp [h.callers i],
      fun i _ j _ => by simp [h.rendezvous i j]⟩
  · rintro ⟨workers, callers, rendezvous⟩
    refine ⟨fun i => ?_, fun i => ?_, fun i j => ?_⟩
    · by_cases inside : i < s.workers.length
      · exact Option.isNone_iff_eq_none.1 (workers i inside)
      · simp [step, List.getElem?_eq_none (Nat.le_of_not_lt inside)]
    · by_cases inside : i < s.callers.length
      · exact Option.isNone_iff_eq_none.1 (callers i inside)
      · simp [step, List.getElem?_eq_none (Nat.le_of_not_lt inside)]
    · by_cases inside : i < s.callers.length
      · by_cases inside' : j < s.workers.length
        · exact Option.isNone_iff_eq_none.1 (rendezvous i inside j inside')
        · simp [step, List.getElem?_eq_none (Nat.le_of_not_lt inside')]
      · simp [step, List.getElem?_eq_none (Nat.le_of_not_lt inside)]

instance : Decidable (Quiescent k s) :=
  decidable_of_iff _ quiescent_iff.symm

theorem Quiescent.worker (h : Quiescent k s) {w : Worker} (member : w ∈ s.workers) :
    w.isWaiting = true ∨ w.isGone = true := by
  obtain ⟨i, here⟩ := List.mem_iff_getElem?.1 member
  have stuck := h.workers i
  obtain ⟨stage, view⟩ := w
  cases stage with
  | waiting => exact .inl rfl
  | exited | lost => exact .inr rfl
  | _ => simp [step, here, stepWorker] at stuck

theorem Quiescent.caller (h : Quiescent k s) {c : Caller} (member : c ∈ s.callers) :
    c.flights = [] ∧ c.entering = [] ∨ ∃ d next, c = .offer d next := by
  obtain ⟨i, here⟩ := List.mem_iff_getElem?.1 member
  have stuck := h.callers i
  cases c with
  | offer d next => exact .inr ⟨d, next, rfl⟩
  | request | acquire | hold | close | join | done => exact .inl ⟨rfl, rfl⟩
  | _ => simp [step, here, stepCaller] at stuck

/-- Whoever waits at the rendezvous is met there, unless all workers have ended. -/
theorem Quiescent.nobody_offers (h : Quiescent k s)
    (staffed : s.workers.all Worker.isGone = false) (c : Calculation) (next : Then) :
    Caller.offer c next ∉ s.callers := by
  intro member
  obtain ⟨w, worker, stays⟩ := List.all_eq_false.1 staffed
  have waiting := (h.worker worker).resolve_right stays
  obtain ⟨i, offering⟩ := List.mem_iff_getElem?.1 member
  obtain ⟨j, resting⟩ := List.mem_iff_getElem?.1 worker
  obtain ⟨stage, view⟩ := w
  cases stage with
  | waiting =>
    have stuck := h.rendezvous i j
    simp [step, offering, resting] at stuck
  | _ => cases waiting

theorem Quiescent.settled (h : Quiescent k s) (sound : s.Sound)
    (received : List (Calculation × Nat)) :
    (s.ledger [] [] received).entering = 0 ∧ (s.ledger [] [] received).flights = 0 := by
  have callers : ∀ c ∈ s.callers, c.flights = [] ∧ c.entering = [] := by
    intro c member
    rcases h.caller member with settled | ⟨d, next, rfl⟩
    · exact settled
    · exact (h.nobody_offers (sound.not_all_gone member rfl) d next member).elim
  have workers : s.workers.flatMap (fun w => w.stage.flights) = [] :=
    List.flatMap_eq_nil_iff.2 fun w member =>
      Worker.flights_of_idle (h.worker member)
  have flights : s.callers.flatMap Caller.flights = [] :=
    List.flatMap_eq_nil_iff.2 fun c member => (callers c member).1
  have entering : s.callers.flatMap Caller.entering = [] :=
    List.flatMap_eq_nil_iff.2 fun c member => (callers c member).2
  simp only [ledger, account, workers, flights, entering]
  exact ⟨rfl, rfl⟩

/-! ### What texts come to -/

/-- The operators that a text charges when it is evaluated alone, and what it comes to. -/
def alone (costs : CostTable) (text : String) : Outlook :=
  match Formula.parse text with
  | .error e => ([], .error e)
  | .ok f =>
    let (outcome, meter) := f.evaluate (fun _ => none) (.start costs)
    (meter.log.map Charge.op, outcome)

/-- The status and the result of a text that is evaluated alone. -/
def fate (costs : CostTable) (text : String) : Calculation.Status × Option Float :=
  match Formula.parse text with
  | .error e => (.failed e.message, none)
  | .ok f => match (f.evaluate (fun _ => none) (.start costs)).1 with
    | .error _ => (.failed "division by zero", none)
    | .ok x => (.done, some x)

def isFormula (text : String) : Bool :=
  (Formula.parse text).isOk

theorem alone_eq_prospect (costs : CostTable) (text : String) :
    alone costs text = prospect text := by
  rw [alone, prospect]
  cases Formula.parse text with
  | error e => rfl
  | ok f =>
    obtain ⟨outcome, log⟩ := f.evaluate_trace (fun _ => none) (.start costs)
    exact Prod.ext log outcome

theorem fate_eq_verdict (costs : CostTable) (text : String) :
    fate costs text = verdict (prospect text).2 := by
  rw [fate, prospect]
  cases Formula.parse text with
  | error e => rfl
  | ok f =>
    obtain ⟨outcome, _⟩ := f.evaluate_trace (fun _ => none) (.start costs)
    simp only [outcome]
    cases ended : f.trace.2 with
    | ok x => rfl
    | error e =>
      rw [Formula.error_of_trace ended]
      rfl

/-- A run over an empty store in which nobody panics and all submissions are in time, up to the
point where nothing is left to do. -/
structure Batch (k : Collaborators) (n : Nat) (table : CostTable) (actions : List Action)
    (s : Service) : Prop extends Session k n table .empty actions s where
  calm : k.Calm
  inTime : InTime k (opened n table .empty) actions
  quiescent : Quiescent k s

section Finished

variable {total : Multiset String} {received : List (Calculation × Nat)} {owned : List Owned}

/-- When nothing is under way, every record has been told of and has come to its end. -/
theorem Undisturbed.recorded (h : Undisturbed k n .empty total s [] received) :
    ∀ c ∈ s.store.all, ∃ id, c.id = some id ∧ s.store.find? id = some c ∧
      labels s.notices id ≠ [] := by
  obtain ⟨owned, faithful⟩ := h.faithful
  intro c member
  obtain ⟨id, found⟩ := Store.mem_all.1 member
  have named := (h.going.stored.kept id c found).1
  exact ⟨id, named, found, (faithful.heard id c found).resolve_right (by simp)⟩

theorem Undisturbed.landed (h : Undisturbed k n .empty total s [] received)
    (faithful : Faithful .empty (s.ledger [] [] received) owned)
    (settled : (s.ledger [] [] received).flights = 0) (costs : CostTable) :
    ∀ c ∈ s.store.all, (c.status, c.result) = fate costs c.text ∧
      ∃ id, c.id = some id ∧ chargedTo owned id = (alone costs c.text).1 := by
  intro c member
  obtain ⟨id, named, found, told⟩ := h.recorded c member
  rw [fate_eq_verdict, alone_eq_prospect]
  obtain ⟨outcome, charged⟩ := faithful.landed id c (by simp [settled]) told found
  exact ⟨outcome, id, named, charged⟩

theorem Undisturbed.owners (h : Undisturbed k n .empty total s [] received)
    (faithful : Faithful .empty (s.ledger [] [] received) owned)
    (settled : (s.ledger [] [] received).flights = 0) :
    ∀ o ∈ owned, ∃ c ∈ s.store.all, c.id = some o.1 := by
  intro o member
  have charged : chargedTo owned o.1 ≠ [] := by
    rw [chargedTo, ne_eq, List.map_eq_nil_iff, List.filter_eq_nil_iff]
    exact fun none => none o member (by simp)
  have told : labels s.notices o.1 ≠ [] :=
    fun silent => charged (faithful.idle o.1 (by simp [settled]) silent)
  obtain ⟨_, c, ended⟩ :=
    (h.going.regular.landed o.1 (by simp [settled])).resolve_left told
  have found := h.going.stored.ended o.1 ⟨.completed, c⟩ (ended ▸ List.mem_singleton_self _)
  exact ⟨c, Store.mem_all.2 ⟨o.1, found⟩, (h.going.stored.kept o.1 c found).1⟩

theorem isFormula_iff {text : String} : isFormula text = true ↔ ∃ f, Formula.parse text = .ok f := by
  rw [isFormula]
  cases Formula.parse text <;> simp [Except.isOk, Except.toBool]

/-- What was received are the records whose texts are formulas, each once. -/
theorem Undisturbed.receipts_perm (h : Undisturbed k n .empty total s [] received)
    (settled : (s.ledger [] [] received).flights = 0) :
    (received.map fun r => (r.1.id, r.1.text)).Perm
      ((s.store.all.filter fun c => isFormula c.text).map fun c => (c.id, c.text)) := by
  have kept := h.going.stored.kept
  have once : (received.map fun r => (r.1.id, r.1.text)).Nodup := by
    refine List.Nodup.of_map Prod.fst ?_
    rw [List.map_map]
    exact h.going.regular.once
  have distinct : ((s.store.all.filter fun c => isFormula c.text).map
      fun c => (c.id, c.text)).Nodup := by
    refine List.Nodup.of_map Prod.fst ?_
    rw [List.map_map]
    have keyed : s.store.Keyed := fun id c found => (kept id c found).1
    exact keyed.nodup_ids.sublist (List.filter_sublist.map _)
  rw [List.perm_ext_iff_of_nodup once distinct]
  intro entry
  constructor
  · intro member
    obtain ⟨r, taken, rfl⟩ := List.mem_map.1 member
    obtain ⟨right, id, c, named, found, same⟩ := h.collected.sources r taken
    refine List.mem_map.2 ⟨c, List.mem_filter.2 ⟨Store.mem_all.2 ⟨id, found⟩, ?_⟩, ?_⟩
    · rw [same]
      exact isFormula_iff.2 right
    · rw [same, named, (kept id c found).1]
  · intro member
    obtain ⟨c, stays, rfl⟩ := List.mem_map.1 member
    obtain ⟨stays, formula⟩ := List.mem_filter.1 stays
    obtain ⟨id, named, found, told⟩ := h.recorded c stays
    obtain ⟨f, right⟩ := isFormula_iff.1 formula
    obtain ⟨r, taken, same⟩ := h.collected.landed id c f (by simp [settled]) told found right
    obtain ⟨_, id', d, named', found', sameText⟩ := h.collected.sources r taken
    cases Option.some.inj (same.symm.trans named')
    cases Option.some.inj (found.symm.trans found')
    exact List.mem_map.2 ⟨r, taken, by rw [same, named, sameText]⟩

end Finished

/-- The records are those of the texts evaluated alone under any table. Each pause is owned by one
of them, and each of them owns what it charges alone, in that order. All formulas are handed over
once, and a single worker charges them in the order of the handovers. -/
theorem Batch.outcome (h : Batch k n table actions s) (costs : CostTable) :
    (s.store.all.map fun c => (c.text, c.status, c.result)).Perm
      ((actions.flatMap Action.brought).map fun text => (text, fate costs text)) ∧
    (∃ owned : List Owned, owned.map Prod.snd = s.log.map Charge.op ∧
      (∀ c ∈ s.store.all, ∃ id, c.id = some id ∧ chargedTo owned id = (alone costs c.text).1) ∧
      ∀ o ∈ owned, ∃ c ∈ s.store.all, c.id = some o.1) ∧
    ((receipts k (opened n table .empty) actions).map fun r => (r.1.id, r.1.text)).Perm
      ((s.store.all.filter fun c => isFormula c.text).map fun c => (c.id, c.text)) ∧
    (n = 1 → s.log.map Charge.op =
      (receipts k (opened n table .empty) actions).flatMap fun r => (alone costs r.1.text).1) := by
  have undisturbed := h.toSession.undisturbed h.calm h.inTime
  obtain ⟨owned, faithful⟩ := undisturbed.faithful
  obtain ⟨entering, settled⟩ := h.quiescent.settled undisturbed.going.sound
    (receipts k (opened n table .empty) actions)
  have landed := undisturbed.landed faithful settled costs
  refine ⟨?_, ⟨owned, faithful.log, fun c member => (landed c member).2,
    undisturbed.owners faithful settled⟩, undisturbed.receipts_perm settled, ?_⟩
  · have fates : s.store.all.map (fun c => (c.text, c.status, c.result)) =
        (s.store.all.map Calculation.text).map fun text => (text, fate costs text) := by
      rw [List.map_map]
      exact List.map_congr_left fun c member => congrArg (Prod.mk c.text) (landed c member).1
    have texts : (s.store.all.map Calculation.text).Perm (actions.flatMap Action.brought) := by
      have accounted := undisturbed.accounted
      have nothing : Store.empty.all.map Calculation.text = [] := rfl
      rw [Accounted, List.flatMap_nil, List.flatMap_nil, entering, zero_add, nothing,
        Multiset.coe_nil, add_zero] at accounted
      exact Multiset.coe_eq_coe.1 accounted
    rw [fates]
    exact texts.map _
  · intro single
    simp only [alone_eq_prospect]
    have idle : ∀ f ∈ (s.ledger [] [] (receipts k (opened n table .empty) actions)).flights,
        f.phase.inHand = false := by simp [settled]
    exact (undisturbed.serial single).free idle

/-- A quotient, a division by zero and a text that does not parse, in the hands of one worker; the
intake is closed behind them. -/
def batchActions : List Action :=
  [.call (.submit "6/3"), .call (.submit "1/0"), .call (.submit "2*(3-1")]
    ++ List.replicate 5 (.caller 1) ++ List.replicate 2 (.caller 2) ++ List.replicate 5 (.caller 0)
    ++ [.handOver 1 0, .call .close, .caller 3] ++ List.replicate 9 (.worker 0) ++ [.handOver 0 0]
    ++ List.replicate 12 (.worker 0) ++ [.caller 3]

theorem batchActions_outcome :
    ∃ s, Batch (.plain fun _ => default) 1 .zero batchActions s ∧
      (s.store.all.map fun c => (c.text, c.status, c.result)).Perm
        ((batchActions.flatMap Action.brought).map fun text => (text, fate .zero text)) ∧
      s.log.map Charge.op = (receipts (.plain fun _ => default) (opened 1 .zero .empty)
        batchActions).flatMap fun r => (alone .zero r.1.text).1 := by
  have ran : ((opened 1 .zero .empty).run (.plain fun _ => default) batchActions).any
      (fun s => decide (Quiescent (.plain fun _ => default) s)) = true := by decide +kernel
  obtain ⟨s, run, quiescent⟩ := (Option.any_eq_true _ _).1 ran
  have batch : Batch (.plain fun _ => default) 1 .zero batchActions s := by
    refine ⟨⟨fun _ _ => rfl, Nat.one_pos, .empty, fun id c found => ?_, ?_, ?_, ?_, run⟩,
      fun _ => rfl, ?_, of_decide_eq_true quiescent⟩
    · simp at found
    · intro a member
      simp only [batchActions, List.mem_append, List.mem_cons, List.mem_replicate,
        List.not_mem_nil, or_false, or_assoc] at member
      rcases member with rfl | rfl | rfl | ⟨-, rfl⟩ | ⟨-, rfl⟩ | ⟨-, rfl⟩ | rfl | rfl | rfl
        | ⟨-, rfl⟩ | rfl | ⟨-, rfl⟩ | rfl <;> trivial
    · decide
    · decide
    · decide +kernel
  obtain ⟨records, _, _, serial⟩ := Batch.outcome batch .zero
  exact ⟨s, batch, records, serial rfl⟩

end Reckoner.Service
