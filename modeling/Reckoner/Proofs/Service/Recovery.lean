import Reckoner.Proofs.Service.Copies
import Reckoner.Proofs.Service.Recording
import Reckoner.Proofs.Service.Resuming

/-!
# Pending work after a restart

A new service resumes whatever its store holds pending, and nothing else is asked of it.
`Recovery.completes` says that then every pending calculation gets what its text comes to, whatever
the store holds, and that nothing else changes.
-/

namespace Reckoner.Service

variable {k : Collaborators} {s t : Service} {n : Nat} {table : CostTable} {first : Store}
variable {actions : List Action} {cs : List Calculation} {ds : List Deed} {c : Calculation}

/-! ### What became of a list -/

/-- A calculation that was taken up failed for its text, or a worker has it. -/
theorem Resolved.ending (h : Resolved cs ds) (listed : c ∈ cs) (resumable : isResumable c = true) :
    (∃ (e : Error) (time : Instant), .told ⟨.completed, failed (reopened c) e.message time⟩ ∈ ds) ∨
      ∃ f j, .handed (queuedWith (reopened c) f) j ∈ ds := by
  have later : ∀ {ds more : List Deed},
      (∃ (e : Error) (time : Instant),
        .told ⟨.completed, failed (reopened c) e.message time⟩ ∈ ds) ∨
        (∃ f j, .handed (queuedWith (reopened c) f) j ∈ ds) →
      (∃ (e : Error) (time : Instant),
        .told ⟨.completed, failed (reopened c) e.message time⟩ ∈ ds ++ more) ∨
        ∃ f j, .handed (queuedWith (reopened c) f) j ∈ ds ++ more := by
    rintro ds more (⟨e, time, told⟩ | ⟨f, j, handed⟩)
    · exact .inl ⟨e, time, List.mem_append_left _ told⟩
    · exact .inr ⟨f, j, List.mem_append_left _ handed⟩
  induction h with
  | none => cases listed
  | skipped _ idle ih =>
    rcases List.mem_append.1 listed with old | new
    · exact ih old
    · rw [List.mem_singleton.1 new, idle] at resumable
      cases resumable
  | unreadable _ _ _ time ih =>
    rcases List.mem_append.1 listed with old | new
    · exact later (ih old)
    · cases List.mem_singleton.1 new
      exact .inl ⟨_, time, List.mem_append_right _ (.tail _ (.head _))⟩
  | handed _ _ _ j ih =>
    rcases List.mem_append.1 listed with old | new
    · exact later (ih old)
    · cases List.mem_singleton.1 new
      exact .inr ⟨_, j, List.mem_append_right _ (.tail _ (.tail _ (.head _)))⟩

/-- What a deed is about is a copy of a calculation of the list; and what is told of it, unless it
has still to be calculated, is what its text comes to. -/
theorem Resolved.copies (h : Resolved cs ds) : ∀ d ∈ ds,
    (∃ c ∈ cs, d.subject.identity = c.identity) ∧
      ∀ m, d = .told m → m.occasion ≠ .created ∧ Fulfilled m.calculation := by
  induction h with
  | none => exact List.forall_mem_nil _
  | skipped _ _ ih =>
    intro d member
    obtain ⟨⟨c, listed, same⟩, told⟩ := ih d member
    exact ⟨⟨c, List.mem_append_left _ listed, same⟩, told⟩
  | @unreadable cs ds c e _ _ wrong time ih =>
    refine List.forall_mem_append.2 ⟨fun d member => ?_, fun d member => ?_⟩
    · obtain ⟨⟨c, listed, same⟩, told⟩ := ih d member
      exact ⟨⟨c, List.mem_append_left _ listed, same⟩, told⟩
    · refine ⟨⟨c, List.mem_append_right _ (.head _), ?_⟩, fun m same => ?_⟩
      · simp only [List.mem_cons, List.not_mem_nil, or_false] at member
        rcases member with rfl | rfl <;> rfl
      · subst same
        simp only [List.mem_cons, List.not_mem_nil, or_false, reduceCtorEq, false_or,
          Deed.told.injEq] at member
        subst member
        refine ⟨by simp, fun _ => ?_⟩
        simp [prospect, failed, reopened, wrong, verdict]
  | @handed cs ds c f _ _ _ j ih =>
    refine List.forall_mem_append.2 ⟨fun d member => ?_, fun d member => ?_⟩
    · obtain ⟨⟨c, listed, same⟩, told⟩ := ih d member
      exact ⟨⟨c, List.mem_append_left _ listed, same⟩, told⟩
    · refine ⟨⟨c, List.mem_append_right _ (.head _), ?_⟩, fun m same => ?_⟩
      · simp only [List.mem_cons, List.not_mem_nil, or_false] at member
        rcases member with rfl | rfl | rfl <;> rfl
      · subst same
        simp only [List.mem_cons, List.not_mem_nil, or_false, reduceCtorEq, false_or,
          Deed.told.injEq] at member
        subst member
        refine ⟨by simp, fun terminal => ?_⟩
        cases terminal

/-- As many are handed over as there are texts that are formulas. -/
theorem Resolved.length_deliveries (h : Resolved cs ds) :
    (deliveries ds).length = cs.countP fun c => isResumable c && isFormula c.text := by
  induction h with
  | none => rfl
  | skipped _ idle ih => simp [ih, idle]
  | @unreadable _ _ c e _ resumable wrong _ ih =>
    have silent : isFormula c.text = false := by rw [isFormula, wrong]; rfl
    simp [ih, resumable, silent]
  | @handed _ _ c f _ resumable right _ ih =>
    have formula : isFormula c.text = true := isFormula_iff.2 ⟨f, right⟩
    simp [ih, resumable, formula]

/-! ### A recovery -/

/-- A new service over a store resumes all that it finds pending, and nothing else is called. -/
structure Recovery (k : Collaborators) (n : Nat) (table : CostTable) (first : Store)
    (actions : List Action) (s : Service) : Prop where
  forwards : k.Forwards
  calm : k.Calm
  manned : 0 < n
  built : first.Built
  asked : calls actions = [.resume first.unfinished 0]
  run : (opened n table first).run k actions = some s

/-- All that was pending in the first store has come to what its text comes to, and nothing else has
changed. -/
structure Recovered (costs : CostTable) (first : Store) (s : Service) : Prop where
  returned : s.callers[0]? =
    some (.done (.resumed (first.unfinished.countP fun c => isFormula c.text)))
  unfinished : s.store.unfinished = []
  pending : ∀ id c, first.find? id = some c → c.isPending = true →
    ∃ d, s.store.find? id = some d ∧ d.id = c.id ∧ d.text = c.text ∧ d.createdAt = c.createdAt ∧
      (d.status, d.result) = fate costs c.text
  others : ∀ id c, first.find? id = some c → c.isPending = false → s.store.find? id = some c
  numbers : ∀ id, (s.store.find? id).isSome = (first.find? id).isSome

namespace Recovery

theorem steady (h : Recovery k n table first actions s) : k.Steady := by
  intro i m
  rw [h.forwards]

theorem shift (h : Recovery k n table first actions s) : Shift k n table first actions s := by
  refine ⟨h.manned, fun a member => ?_, h.run⟩
  cases a with
  | call c =>
    have call : c ∈ calls actions := List.mem_filterMap.2 ⟨_, member, rfl⟩
    rw [h.asked, List.mem_singleton] at call
    subst call
    rfl
  | _ => trivial

theorem alone (h : Recovery k n table first actions s) : Alone 0 actions := by
  intro j c call other
  cases j with
  | zero => exact (other rfl).elim
  | succ j => simp [h.asked] at call

theorem usual (h : Recovery k n table first actions s) : ∀ a ∈ actions, a.Usual := by
  refine h.shift.usual fun c call => ?_
  rw [h.asked, List.mem_singleton] at call
  subst call
  exact ⟨by simp, by simp⟩

theorem isOpen (h : Recovery k n table first actions s) : s.isOpen = true := by
  refine h.shift.isOpen ?_
  rw [h.asked]
  simp

theorem resumable (h : Recovery k n table first actions s) {c : Calculation}
    (listed : c ∈ first.unfinished) :
    isResumable c = true ∧ ∃ id, c.id = some id ∧ first.find? id = some c := by
  obtain ⟨⟨id, found⟩, pending⟩ := Store.mem_unfinished.1 listed
  have named := h.built.keyed id c found
  exact ⟨by rw [isResumable, named, pending]; rfl, id, named, found⟩

theorem call (h : Recovery k n table first actions s) :
    (calls actions)[0]? = some (.resume first.unfinished 0) := by
  rw [h.asked]
  rfl

/-- What the call did when it has returned. -/
theorem resolved (h : Recovery k n table first actions s) {reply : Reply}
    (returned : s.callers[0]? = some (.done reply)) :
    reply = .resumed (first.unfinished.countP fun c => isFormula c.text) ∧
      Resolved first.unfinished (deeds k 0 (opened n table first) actions) := by
  obtain ⟨caller, here, resuming⟩ := h.shift.resuming h.steady h.call
  cases here.symm.trans returned
  generalize same : deeds k 0 (opened n table first) actions = ds at resuming
  cases resuming with
  | returned resolved =>
    refine ⟨?_, resolved⟩
    rw [resolved.length_deliveries]
    congr 1
    refine List.countP_congr fun c listed => ?_
    rw [(h.resumable listed).1, Bool.true_and]
  | refused =>
    have closed := h.shift.closed_of_refused (i := 0) (same ▸ List.mem_append_right _ (.head _))
    rw [h.isOpen] at closed
    cases closed

/-- Whatever was told is about something that was pending, and an end that was told is the right
one. -/
theorem heard (h : Recovery k n table first actions s)
    (resolved : Resolved first.unfinished (deeds k 0 (opened n table first) actions)) :
    ∀ m ∈ s.notices, m.occasion ≠ .created ∧ Fulfilled m.calculation ∧
      ∃ c ∈ first.unfinished, m.calculation.identity = c.identity := by
  intro m told
  rcases h.shift.told_of_notices told with ⟨j, own⟩ | ⟨j, reported⟩
  · by_cases same : j = 0
    · subst same
      obtain ⟨⟨c, listed, same⟩, told⟩ := resolved.copies _ own
      exact ⟨(told m rfl).1, (told m rfl).2, c, listed, same⟩
    · rw [(h.shift.only_closes h.alone same).1] at own
      cases own
  · obtain ⟨later, _, q, taken, same⟩ := h.shift.copies h.forwards h.usual _ reported
    rw [h.shift.received_eq h.alone] at taken
    obtain ⟨⟨c, listed, equal⟩, _⟩ := resolved.copies _ (mem_deliveries.1 taken)
    exact ⟨later, h.shift.verdicts h.forwards h.calm h.usual _ reported, c, listed,
      same.trans equal⟩

/-- Hence whatever was told under a number is a copy of its first record. -/
theorem original (h : Recovery k n table first actions s)
    (resolved : Resolved first.unfinished (deeds k 0 (opened n table first) actions)) {m : Notice}
    (told : m ∈ s.notices) {id : Calculation.Id} (named : m.calculation.id = some id) :
    ∃ c, first.find? id = some c ∧ c.isPending = true ∧ m.calculation.identity = c.identity := by
  obtain ⟨_, _, c, listed, same⟩ := h.heard resolved m told
  obtain ⟨_, x, own, found⟩ := h.resumable listed
  have equal : x = id := by
    have ids : m.calculation.id = c.id := congrArg Prod.fst same
    rw [named, own] at ids
    exact (Option.some.inj ids).symm
  subst equal
  exact ⟨c, found, (Store.mem_unfinished.1 listed).2, same⟩

theorem recorded (h : Recovery k n table first actions s) : Recorded first s.notices s.store :=
  recorded_of_run h.forwards h.run .none

/-- At rest an end was told of all that was pending. -/
theorem ended (h : Recovery k n table first actions s)
    (resolved : Resolved first.unfinished (deeds k 0 (opened n table first) actions))
    (idle : ∀ w ∈ s.workers, w.isWaiting = true) (listed : c ∈ first.unfinished) :
    ∃ m ∈ s.notices, m.calculation.id = c.id ∧ m.calculation.isTerminal = true := by
  rcases resolved.ending listed (h.resumable listed).1 with ⟨e, time, told⟩ | ⟨f, j, handed⟩
  · exact ⟨_, h.shift.notices_of_told told, rfl, rfl⟩
  · have taken : queuedWith (reopened c) f ∈ ofWorker j h.shift.received := by
      rw [h.shift.received_eq h.alone]
      simpa [ofWorker] using mem_deliveries.2 handed
    obtain ⟨d, told, ends⟩ := (h.shift.reported_of_rest h.steady
      (fun w member => .inl (idle w member)) j).ended taken
    have reported : (⟨.completed, d⟩, j) ∈ h.shift.reported := by simpa [ofWorker] using told
    exact ⟨_, h.shift.notices_of_reported reported, ends.id, ends.terminal⟩

/-- The record of something that was pending has ended, and is a copy of it. -/
theorem landed (h : Recovery k n table first actions s)
    (resolved : Resolved first.unfinished (deeds k 0 (opened n table first) actions))
    (idle : ∀ w ∈ s.workers, w.isWaiting = true) {id : Calculation.Id}
    (found : first.find? id = some c) (pending : c.isPending = true) :
    ∃ d, s.store.find? id = some d ∧ d.isTerminal = true ∧ Fulfilled d ∧
      d.identity = c.identity := by
  have named := h.built.keyed id c found
  have going : ∀ d, first.find? id = some d → d.isTerminal = false := by
    intro d same
    cases found.symm.trans same
    refine Bool.eq_false_iff.2 fun terminal => ?_
    rw [Calculation.isPending, Calculation.Status.not_isPending_of_isTerminal terminal] at pending
    cases pending
  obtain ⟨m, told, numbered, terminal⟩ :=
    h.ended resolved idle (Store.mem_unfinished.2 ⟨⟨id, found⟩, pending⟩)
  obtain ⟨m, told, numbered, terminal, record⟩ := h.recorded.find?_of_ended
    (fun m told _ => (h.heard resolved m told).1) going ⟨m, told, numbered.trans named, terminal⟩
  obtain ⟨c, there, _, same⟩ := h.original resolved told numbered
  cases found.symm.trans there
  exact ⟨m.calculation, record, terminal, (h.heard resolved m told).2.1, same⟩

/-- Whatever was not pending is left alone. -/
theorem kept (h : Recovery k n table first actions s)
    (resolved : Resolved first.unfinished (deeds k 0 (opened n table first) actions))
    {id : Calculation.Id} (idle : ∀ c, first.find? id = some c → c.isPending = false) :
    s.store.find? id = first.find? id := by
  refine h.recorded.find?_of_unheard fun m told numbered => ?_
  obtain ⟨c, found, pending, _⟩ := h.original resolved told numbered
  rw [idle c found] at pending
  cases pending

theorem recovered (h : Recovery k n table first actions s) {reply : Reply}
    (returned : s.callers[0]? = some (.done reply)) (idle : ∀ w ∈ s.workers, w.isWaiting = true)
    (costs : CostTable) : Recovered costs first s := by
  obtain ⟨rfl, resolved⟩ := h.resolved returned
  have others : ∀ id c, first.find? id = some c → c.isPending = false →
      s.store.find? id = some c := by
    intro id c found still
    rw [h.kept resolved fun d same => ?_, found]
    cases found.symm.trans same
    exact still
  have vacant : ∀ id, first.find? id = none → s.store.find? id = none := by
    intro id missing
    rw [h.kept resolved fun d same => ?_, missing]
    cases missing.symm.trans same
  refine ⟨returned, ?_, ?_, others, ?_⟩
  · refine List.eq_nil_iff_forall_not_mem.2 fun d listed => ?_
    obtain ⟨⟨id, record⟩, waiting⟩ := Store.mem_unfinished.1 listed
    cases found : first.find? id with
    | none =>
      rw [vacant id found] at record
      cases record
    | some c =>
      cases pending : c.isPending with
      | false =>
        cases record.symm.trans (others id c found pending)
        rw [pending] at waiting
        cases waiting
      | true =>
        obtain ⟨d', there, terminal, _⟩ := h.landed resolved idle found pending
        cases record.symm.trans there
        rw [Calculation.isPending,
          Calculation.Status.not_isPending_of_isTerminal terminal] at waiting
        cases waiting
  · intro id c found pending
    obtain ⟨d, there, terminal, right, same⟩ := h.landed resolved idle found pending
    simp only [Calculation.identity, Prod.mk.injEq] at same
    refine ⟨d, there, same.1, same.2.1, same.2.2, ?_⟩
    rw [fate_eq_verdict, ← same.2.1, right terminal]
  · intro id
    cases found : first.find? id with
    | none => rw [vacant id found]
    | some c =>
      cases pending : c.isPending with
      | false => rw [others id c found pending]
      | true =>
        obtain ⟨d, there, _⟩ := h.landed resolved idle found pending
        rw [there]
        rfl

/-- At rest the workers wait, for nobody closed the intake. -/
theorem waiting (h : Recovery k n table first actions s) (quiescent : Quiescent k s) :
    ∀ w ∈ s.workers, w.isWaiting = true := by
  intro w member
  refine (quiescent.worker member).resolve_right fun gone => ?_
  rcases Worker.isGone_iff.1 gone with left | lost
  · have closed := (h.shift.orderly.loyal w member left).1
    rw [h.isOpen] at closed
    cases closed
  · exact h.shift.not_lost h.steady member lost

end Recovery

/-- A restarted service brings everything that was pending to its end, and nothing else is changed:
as soon as the call has returned and the workers wait; and it comes to that, for there is only so
much that can happen before everything rests. -/
theorem Recovery.completes (h : Recovery k n table first actions s) (costs : CostTable) :
    ((∃ reply, s.callers[0]? = some (.done reply)) → (∀ w ∈ s.workers, w.isWaiting = true) →
      Recovered costs first s) ∧
    (Quiescent k s → Recovered costs first s) ∧
    ∀ more t, (∀ a ∈ more, a.isInside = true) → s.run k more = some t → more.length ≤ s.work := by
  refine ⟨fun ⟨_, returned⟩ idle => h.recovered returned idle costs, fun quiescent => ?_, ?_⟩
  · obtain ⟨_, returned⟩ := h.shift.resume_returns h.steady h.call quiescent
    exact h.recovered returned (h.waiting quiescent) costs
  · intro more t inside run
    have bound := h.shift.orderly.length_add_work_le inside run
    omega

/-- One calculation done, one failed and one only created, and three that a stop left pending: a sum
that was being calculated, a text that is no formula, and a division by zero. -/
def interrupted : Snapshot where
  nextId := 9
  costs := none
  calculations :=
    [{ Calculation.new "6/3" default with id := some 1, status := .done, result := some 2 },
      { Calculation.new "1+1" default with id := some 2, status := .calculating },
      { Calculation.new "1+" default with id := some 4, status := .queued },
      { Calculation.new "1/0" default with id := some 5, status := .queued },
      { Calculation.new "8" default with id := some 6 },
      { Calculation.new "7" default with id := some 7, status := .failed "division by zero" }]

def recoveringActions : List Action :=
  [.call (.resume interrupted.restore.unfinished 0)] ++ List.replicate 4 (.caller 0) ++
    [.handOver 0 0] ++ List.replicate 6 (.caller 0) ++ List.replicate 11 (.worker 0) ++
    [.handOver 0 0, .caller 0] ++ List.replicate 9 (.worker 0)

theorem recoveringActions_completes :
    ∃ s, Recovery (.plain fun _ => default) 1 .zero interrupted.restore recoveringActions s ∧
      Quiescent (.plain fun _ => default) s ∧ Recovered .zero interrupted.restore s := by
  have ran : ((opened 1 .zero interrupted.restore).run (.plain fun _ => default)
      recoveringActions).any (fun s => decide (Quiescent (.plain fun _ => default) s)) = true := by
    decide +kernel
  obtain ⟨s, run, quiescent⟩ := (Option.any_eq_true _ _).1 ran
  have recovery : Recovery (.plain fun _ => default) 1 .zero interrupted.restore
      recoveringActions s :=
    ⟨fun _ _ => rfl, fun _ => rfl, Nat.one_pos, .restored _, rfl, run⟩
  have quiescent := of_decide_eq_true quiescent
  exact ⟨s, recovery, quiescent, (Recovery.completes recovery .zero).2.1 quiescent⟩

end Reckoner.Service
